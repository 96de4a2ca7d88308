/-
What the exception table covers.

Each region has a row: from the label of its first operation to the label
where its protected range ends, which is its handler if that follows at
once and the operation behind the range if not. The table keeps the rows
that have code.

Which code a row covers is a question about addresses, and the answer is
one about the source (`Covers`): the code of the operations in the
protected range and of the handlers that start inside it. Between the two
stand the marks. An instruction lies behind a label exactly if the label
is bound in front of it, and that is so exactly if the label has no
greater place than the owner of the instruction (`mem_front_iff`). What is
left is arithmetic on places (`covers_iff_place`), but for one case: a
handler that starts just where a protected range ends would be in front of
the operation there and so inside the range, were it not the handler of
the range itself. Regions that are nested or apart leave no room for
another one (`Region.handlerOffset_ne_stop`).

# Finally clauses

A leave runs the finally clause of a region from anywhere between the
start of the region and the clause. The row ends with the protected range.
The catch and filter clauses in between, and a gap in front of them, are
guarded against leaves and not against exceptions.
-/
import BytecodeBridge.Proofs.Lowering.Completion
import BytecodeBridge.Proofs.Lowering.Marks
import BytecodeBridge.Proofs.Region.Routing

namespace BytecodeBridge

-- ==== the regions

/-- Of two regions of a tree, the handler of neither starts where the protected range
of the other ends. -/
theorem Region.handlerOffset_ne_stop {a b : Region} (ha : a.Sound) (hb : b.Sound)
    (h : a.Apart b ∨ a.Inside b) : a.handlerOffset ≠ b.stop ∧ b.handlerOffset ≠ a.stop := by
  have hastart := ha.start_lt
  have hbstart := hb.start_lt
  have haspan := ha.stop_lt_span
  have hbspan := hb.stop_lt_span
  obtain ⟨halow, hahigh⟩ := ha.handlerOffset_bounds
  obtain ⟨hblow, hbhigh⟩ := hb.handlerOffset_bounds
  rcases h with h | h
  · unfold Apart at h
    omega
  · have hcases := hb.inside_cases h
    omega

/-- A handler that starts where a protected range ends is the handler of that range. -/
theorem Laminar.handlerOffset_eq_stop {regions : List Region} (hlam : Laminar regions)
    {i j : Nat} {region other : Region} (hregion : regions[i]? = some region)
    (hother : regions[j]? = some other) (h : other.handlerOffset = region.stop) :
    region.handlerOffset = region.stop := by
  obtain ⟨hi, rfl⟩ := List.getElem?_eq_some_iff.mp hregion
  obtain ⟨hj, rfl⟩ := List.getElem?_eq_some_iff.mp hother
  have hsound := hlam.sound _ (List.getElem_mem hi)
  have hsound' := hlam.sound _ (List.getElem_mem hj)
  rcases Nat.lt_trichotomy i j with hlt | rfl | hlt
  · have hnested := List.pairwise_iff_getElem.mp hlam.nested i j hi hj hlt
    exact absurd h (Region.handlerOffset_ne_stop hsound hsound' hnested).2
  · exact h
  · have hnested := List.pairwise_iff_getElem.mp hlam.nested j i hj hi hlt
    exact absurd h (Region.handlerOffset_ne_stop hsound' hsound hnested).1

theorem Region.start_le_of_guards {r : Region} {offset : Nat} (h : r.guards offset = true) :
    r.start ≤ offset := by
  unfold guards at h
  split at h
  · exact of_decide_eq_true (Bool.and_eq_true_iff.mp h).1
  · cases h

/-- The addresses that a row of an exception table covers. -/
def ExceptionEntry.Holds (row : ExceptionEntry) (address : Nat) : Prop :=
  row.startPc ≤ address ∧ address < row.stopPc

namespace Lowering

-- ==== what is covered

/-- The code that a region protects, by its owner: the operations in the protected
range, and the handlers that start behind its first operation. -/
def Covers (t : RegionTree) (region : Region) : Option Label → Prop
  | some (.source o) => region.start ≤ o ∧ o < region.stop
  | some (.handler q) => ∃ other, t.regions[q]? = some other ∧
      region.start < other.handlerOffset ∧ other.handlerOffset < region.stop
  | _ => False

section Places

variable {t : RegionTree} {r : Nat} {region : Region}

theorem place_stopLabel (hregion : t.regions[r]? = some region) :
    place t (stopLabel r region)
      = if region.stop = region.handlerOffset then 2 * region.stop else 2 * region.stop + 1 := by
  unfold stopLabel
  by_cases hadjacent : region.stop = region.handlerOffset
  · rw [if_pos hadjacent, if_pos hadjacent, hadjacent]
    simp [place, hregion]
  · rw [if_neg hadjacent, if_neg hadjacent, place_source]

private theorem place_stopLabel_bounds (hregion : t.regions[r]? = some region) :
    2 * region.stop ≤ place t (stopLabel r region) ∧
      place t (stopLabel r region) ≤ 2 * region.stop + 1 := by
  rw [place_stopLabel hregion]
  split
  · omega
  · omega

theorem isMark_stopLabel (r : Nat) (region : Region) : (stopLabel r region).isMark = true := by
  unfold stopLabel
  split
  · rfl
  · rfl

/-- The marks of protected code are those between the labels of the row. -/
private theorem covers_iff_place (hlam : Laminar t.regions) (hregion : t.regions[r]? = some region)
    {label : Label} (hmark : label.isMark = true) :
    Covers t region (some label) ↔
      place t (.source region.start) ≤ place t label ∧
        place t label < place t (stopLabel r region) := by
  rw [place_stopLabel hregion, place_source]
  cases label with
  | source o =>
    rw [place_source]
    show region.start ≤ o ∧ o < region.stop ↔ _
    split
    · omega
    · omega
  | handler q =>
    cases hother : t.regions[q]? with
    | none => simp [Covers, place, hother]
    | some other =>
      have hplace : place t (.handler q) = 2 * other.handlerOffset := by
        simp [place, hother]
      rw [hplace]
      simp only [Covers, hother, Option.some.injEq, exists_eq_left']
      split
      · omega
      · next hgap =>
        have hne : other.handlerOffset ≠ region.stop := fun heq =>
          hgap (hlam.handlerOffset_eq_stop hregion hother heq).symm
        omega
  | _ => cases hmark

end Places

-- ==== the rows

/-- How a method was made: the context of its lowering, the state at the end, the
assembly of the code, and a row for each region. The exception table has the rows of
the regions that have code, in the order of the regions. -/
structure Tabled (config : Config) (T : TypeTable) (pool : Pool) (body : Body) (m : Method)
    (cx : Context) (s : LowerState) (asm : Assembly) (rows : List ExceptionEntry) : Prop where
  lowered : ∃ start, prepare config T body (initial pool body) = .ok cx start ∧
    lowerAll body.code cx start = .ok () s
  assembled : s.code.assemble = .ok asm
  code : m.code = asm.code
  length : rows.length = cx.regions.regions.length
  row : ∀ k region row, cx.regions.regions[k]? = some region → rows[k]? = some row →
    RowOf asm.labels k region row
  exceptions : m.exceptions = rows.filter fun row => row.startPc < row.stopPc

theorem tabled_of_finished {config : Config} {T : TypeTable} {pool : Pool} {body : Body}
    {m : Method} {cx : Context} {start s : LowerState} {asm : Assembly}
    {frames : Std.TreeMap Nat Frame}
    (hprepare : prepare config T body (initial pool body) = .ok cx start)
    (hlower : lowerAll body.code cx start = .ok () s) (hfinished : Finished cx s asm frames m) :
    ∃ rows, Tabled config T pool body m cx s asm rows := by
  obtain ⟨rows, hrows, hexceptions⟩ := hfinished.rows
  have hlength : rows.length = cx.regions.regions.length := by
    rw [← hrows.length_eq, List.length_zipIdx]
  refine ⟨rows, ⟨start, hprepare, hlower⟩, hfinished.assembled, hfinished.code, hlength,
    fun k region row hregion hrow => ?_, hexceptions⟩
  have hentry : cx.regions.regions.zipIdx[k]? = some (region, k) := by
    simp [List.getElem?_zipIdx, hregion]
  obtain ⟨found, hfound, hof⟩ := forall₂_getElem?_left hrows hentry
  cases hrow.symm.trans hfound
  exact hof

theorem exists_tabled {config : Config} {T : TypeTable} {pool : Pool} {body : Body} {m : Method}
    (h : (lowerMethod config T pool body).result = .ok m) :
    ∃ cx s asm rows, Tabled config T pool body m cx s asm rows := by
  obtain ⟨cx, start, s, _, hprepare, hlower, hfinish⟩ := run_ok h
  obtain ⟨⟨asm, frames, hfinished⟩, -⟩ := exists_finished hfinish
  exact ⟨cx, s, asm, tabled_of_finished hprepare hlower hfinished⟩

namespace Tabled

variable {config : Config} {T : TypeTable} {pool : Pool} {body : Body} {m : Method}
  {cx : Context} {s : LowerState} {asm : Assembly} {rows : List ExceptionEntry}

theorem laminar (h : Tabled config T pool body m cx s asm rows) : Laminar cx.regions.regions := by
  obtain ⟨start, hprepare, -⟩ := h.lowered
  exact (prepare_ok hprepare).2.2.2.prepared.laminar

theorem pairwise_marks (h : Tabled config T pool body m cx s asm rows)
    (hordered : body.code.Pairwise fun a b => a.1 < b.1) :
    (marks s.code.items).Pairwise fun a b => place cx.regions a < place cx.regions b := by
  obtain ⟨start, hprepare, hlower⟩ := h.lowered
  obtain ⟨-, -, rfl, hstarted⟩ := prepare_ok hprepare
  rw [marks_of_lowerAll hstarted hlower h.assembled]
  exact pairwise_place cx.regions hordered

/-- A row covers an instruction exactly if its region protects the owner. -/
theorem covers (h : Tabled config T pool body m cx s asm rows)
    (hordered : body.code.Pairwise fun a b => a.1 < b.1) :
    List.Forall₂ (fun owner e => ∀ (k : Nat) (region : Region) (row : ExceptionEntry),
        cx.regions.regions[k]? = some region → rows[k]? = some row →
        (row.Holds e.1 ↔ Covers cx.regions region owner))
      (owners none s.code.items) m.code := by
  obtain ⟨items, l, hwide, hassembled⟩ := CodeBuffer.assemble_ok h.assembled
  have hmarks := h.pairwise_marks hordered
  rw [← marks_widens hwide] at hmarks
  rw [h.code, ← owners_widens hwide]
  refine hassembled.owners.imp fun owner e hcut k region row hregion hrow => ?_
  obtain ⟨pre, item, post, heq, hitem, hstop, rfl⟩ := hcut
  have hrow := h.row k region row hregion hrow
  -- an address tells whether a label of the row is bound in front of the instruction
  have hbound : ∀ {label a}, asm.labels[label]? = some a → label.isMark = true →
      (a ≤ e.1 ↔ label ∈ marks pre) := by
    intro label a hlabel hmark
    rw [← hstop, hassembled.le_iff_mem hlabel heq hitem, mem_marks, and_iff_left hmark]
  unfold ExceptionEntry.Holds
  rw [← Nat.not_le, hbound hrow.start rfl, hbound hrow.stop (isMark_stopLabel k region)]
  cases hlast : (marks pre).getLast? with
  | none =>
    rw [List.getLast?_eq_none_iff.mp hlast]
    simp [Covers]
  | some last =>
    have hfront : marks pre <+: marks items := by
      rw [heq, marks_append]
      exact List.prefix_append _ _
    have hmark : last.isMark = true := (mem_marks.mp (List.mem_of_getLast? hlast)).2
    rw [covers_iff_place h.laminar hregion hmark,
      mem_front_iff hmarks hfront hlast (hassembled.mem_marks hrow.start rfl),
      mem_front_iff hmarks hfront hlast
        (hassembled.mem_marks hrow.stop (isMark_stopLabel k region)), Nat.not_le]

/-- Rows that have an address in common are nested as their regions are. -/
theorem nested (h : Tabled config T pool body m cx s asm rows)
    (hordered : body.code.Pairwise fun a b => a.1 < b.1) {i j : Nat} (hlt : i < j)
    {inner outer : Region} {row row' : ExceptionEntry}
    (hinner : cx.regions.regions[i]? = some inner) (houter : cx.regions.regions[j]? = some outer)
    (hrow : rows[i]? = some row) (hrow' : rows[j]? = some row') {p : Nat}
    (hp : row.Holds p) (hp' : row'.Holds p) :
    inner.Inside outer ∧ row'.startPc ≤ row.startPc ∧ row.stopPc ≤ row'.stopPc := by
  obtain ⟨items, l, hwide, hassembled⟩ := CodeBuffer.assemble_ok h.assembled
  have hmarks := h.pairwise_marks hordered
  rw [← marks_widens hwide] at hmarks
  have hof := h.row i inner row hinner hrow
  have hof' := h.row j outer row' houter hrow'
  unfold ExceptionEntry.Holds at hp hp'
  have hle : ∀ {a b p q}, asm.labels[a]? = some p → asm.labels[b]? = some q →
      a.isMark = true → b.isMark = true → place cx.regions a ≤ place cx.regions b → p ≤ q :=
    hassembled.le_of_key_le hmarks
  obtain ⟨hlow, hhigh⟩ := place_stopLabel_bounds hinner
  obtain ⟨hlow', hhigh'⟩ := place_stopLabel_bounds houter
  obtain ⟨hi, rfl⟩ := List.getElem?_eq_some_iff.mp hinner
  obtain ⟨hj, rfl⟩ := List.getElem?_eq_some_iff.mp houter
  have hspan := (h.laminar.sound _ (List.getElem_mem hi)).stop_lt_span
  have hsound' := h.laminar.sound _ (List.getElem_mem hj)
  have hspan' := hsound'.stop_lt_span
  rcases List.pairwise_iff_getElem.mp h.laminar.nested i j hi hj hlt with hapart | hinside
  · -- one range ends before the other starts
    exfalso
    rcases hapart with hbefore | hafter
    · have := hle hof.stop hof'.start (isMark_stopLabel _ _) rfl (by rw [place_source]; omega)
      omega
    · have := hle hof'.stop hof.start (isMark_stopLabel _ _) rfl (by rw [place_source]; omega)
      omega
  · rcases hsound'.inside_cases hinside with ⟨hstart, hstop⟩ | hclause
    · refine ⟨hinside, ?_, ?_⟩
      · exact hle hof'.start hof.start rfl rfl (by rw [place_source, place_source]; omega)
      · exact hle hof.stop hof'.stop (isMark_stopLabel _ _) (isMark_stopLabel _ _) (by omega)
    · -- a clause lies behind the protected range
      exfalso
      have hbehind := hsound'.handlerOffset_bounds.1
      have := hle hof'.stop hof.start (isMark_stopLabel _ _) rfl (by rw [place_source]; omega)
      omega

/-- A leave that a region guards is relayed through its finally clause. -/
theorem relayed (h : Tabled config T pool body m cx s asm rows) {k : Nat} {region : Region}
    (hregion : cx.regions.regions[k]? = some region) {o target : Nat}
    (hguards : region.guards o = true) (hout : region.guards target = false) :
    k ∈ RegionTree.relays cx.regions.regions o target := by
  refine (RegionTree.crossed_sublist_relays h.laminar o target).subset ?_
  have hsound := h.laminar.sound region (List.mem_of_getElem? hregion)
  have hcrosses : region.Crosses o target := by
    rw [hsound.crosses_iff_guards, hguards, hout]
    rfl
  unfold RegionTree.crossedFrom
  rw [List.mem_filterMap]
  exact ⟨(region, k), List.mk_mem_zipIdx_iff_getElem?.mpr hregion, if_pos hcrosses⟩

end Tabled

-- ==== a look ahead

/-- The regions of a body, and the owners of its code, if its lowering completes. -/
def surveyed (config : Config) (T : TypeTable) (pool : Pool) (body : Body) :
    Option (List Region × List (Option Label)) :=
  (previewedFrom config T pool body).map fun p =>
    (p.context.regions.regions, owners none p.state.code.items)

section Results

variable {config : Config} {T : TypeTable} {pool : Pool} {body : Body} {m : Method}

theorem exists_of_surveyed {found : List Region × List (Option Label)}
    (h : surveyed config T pool body = some found) :
    ∃ m, (lowerMethod config T pool body).result = .ok m := by
  obtain ⟨p, hp, -⟩ := Option.map_eq_some_iff.mp h
  obtain ⟨m, _, hm, -⟩ := exists_of_previewedFrom hp
  exact ⟨m, hm⟩

theorem Tabled.eq_of_surveyed {cx : Context} {s : LowerState} {asm : Assembly}
    {rows : List ExceptionEntry} (h : Tabled config T pool body m cx s asm rows)
    {regions : List Region} {owned : List (Option Label)}
    (hsurvey : surveyed config T pool body = some (regions, owned)) :
    cx.regions.regions = regions ∧ owners none s.code.items = owned := by
  obtain ⟨start, hprepare, hlower⟩ := h.lowered
  obtain ⟨p, hp, heq⟩ := Option.map_eq_some_iff.mp hsurvey
  obtain ⟨_, _, -, hprepare', hlower', -⟩ := exists_of_previewedFrom hp
  cases hprepare.symm.trans hprepare'
  cases hlower.symm.trans hlower'
  exact Prod.mk.inj heq

-- ==== the table

/-- The exception table covers the protected code, innermost first, if the offsets of the
body ascend. The row of a region covers an instruction exactly if the region protects its
owner. Where two rows have an address in common, the first belongs to a region inside the
region of the second and lies within it. -/
theorem exceptions_cover_protected (h : (lowerMethod config T pool body).result = .ok m)
    (hordered : body.code.Pairwise fun a b => a.1 < b.1) :
    ∃ cx s asm rows, Tabled config T pool body m cx s asm rows ∧
      List.Forall₂ (fun owner e => ∀ (k : Nat) (region : Region) (row : ExceptionEntry),
          cx.regions.regions[k]? = some region → rows[k]? = some row →
          (row.Holds e.1 ↔ Covers cx.regions region owner))
        (owners none s.code.items) m.code ∧
      ∀ (i j : Nat) (inner outer : Region) (row row' : ExceptionEntry), i < j →
        cx.regions.regions[i]? = some inner → cx.regions.regions[j]? = some outer →
        rows[i]? = some row → rows[j]? = some row' → (∃ p, row.Holds p ∧ row'.Holds p) →
        inner.Inside outer ∧ row'.startPc ≤ row.startPc ∧ row.stopPc ≤ row'.stopPc := by
  obtain ⟨cx, s, asm, rows, htabled⟩ := exists_tabled h
  refine ⟨cx, s, asm, rows, htabled, htabled.covers hordered, ?_⟩
  intro i j inner outer row row' hlt hinner houter hrow hrow' hcommon
  obtain ⟨p, hp, hp'⟩ := hcommon
  exact htabled.nested hordered hlt hinner houter hrow hrow' hp hp'

/-- A fault clause inside the protected range of another. -/
def nestedFaults : Body where
  owner := .ref "Guard"
  name := "run"
  kind := .static
  params := []
  locals := []
  returns := none
  code := [(0, .loadNull), (1, .throw), (2, .endFinally), (3, .endFinally)]
  handlers :=
    [{ kind := .fault, tryStart := 0, tryStop := 2, handlerStart := 2, handlerStop := 3,
       catchType := none, filterStart := none },
     { kind := .fault, tryStart := 0, tryStop := 3, handlerStart := 3, handlerStop := 4,
       catchType := none, filterStart := none }]

private theorem surveyed_nestedFaults :
    surveyed {} (.ofConfig {}) .empty nestedFaults = some
      ([{ start := 0, stop := 2,
          clauses := [{ kind := .fault, start := 2, stop := 3, handlerStart := 2 }] },
        { start := 0, stop := 3,
          clauses := [{ kind := .fault, start := 3, stop := 4, handlerStart := 3 }] }],
       [some (.source 0), some (.source 1), some (.handler 0), some (.source 2),
        some (.handler 1), some (.source 3)]) := by
  cbv

/-- Both rows cover the first instruction, and the first row lies within the second. -/
theorem exceptions_cover_nestedFaults :
    ∃ m cx s asm row row', (lowerMethod {} (.ofConfig {}) .empty nestedFaults).result = .ok m ∧
      Tabled {} (.ofConfig {}) .empty nestedFaults m cx s asm [row, row'] ∧
      (∃ e ∈ m.code, row.Holds e.1 ∧ row'.Holds e.1) ∧
      row'.startPc ≤ row.startPc ∧ row.stopPc ≤ row'.stopPc := by
  obtain ⟨m, hm⟩ := exists_of_surveyed surveyed_nestedFaults
  obtain ⟨cx, s, asm, rows, htabled, hcovers, hnested⟩ :=
    exceptions_cover_protected hm (by decide)
  obtain ⟨hregions, howners⟩ := htabled.eq_of_surveyed surveyed_nestedFaults
  have hlength := htabled.length
  rw [hregions] at hlength hcovers hnested
  obtain ⟨row, row', rfl⟩ := List.length_eq_two.mp hlength
  rw [howners] at hcovers
  obtain ⟨e, he, hfirst⟩ := forall₂_mem_left hcovers List.mem_cons_self
  have hcommon : row.Holds e.1 ∧ row'.Holds e.1 :=
    ⟨(hfirst 0 _ row rfl rfl).mpr ⟨Nat.le_refl 0, Nat.zero_lt_two⟩,
      (hfirst 1 _ row' rfl rfl).mpr ⟨Nat.le_refl 0, Nat.zero_lt_succ 2⟩⟩
  exact ⟨m, cx, s, asm, row, row', hm, htabled, ⟨e, he, hcommon⟩,
    (hnested 0 1 _ _ row row' Nat.zero_lt_one rfl rfl rfl rfl ⟨e.1, hcommon⟩).2⟩

-- ==== finally clauses

/-- What a finally clause guards, where offsets ascend. A leave out of the guarded offsets
is relayed through the clause, and the clause knows its target. An exception of the code
there is covered by the row of the region exactly if it is raised in the protected range. -/
theorem finally_guards (h : (lowerMethod config T pool body).result = .ok m)
    (hordered : body.code.Pairwise fun a b => a.1 < b.1) :
    ∃ cx s asm rows, Tabled config T pool body m cx s asm rows ∧
      ∀ (k : Nat) (region : Region) (row : ExceptionEntry),
        cx.regions.regions[k]? = some region → rows[k]? = some row →
        ∀ o op, (o, op) ∈ body.code → region.guards o = true →
          (∀ target, region.guards target = false →
            k ∈ RegionTree.relays cx.regions.regions o target ∧
              (op = .leave target → target ∈ region.leaveTargets)) ∧
          List.Forall₂ (fun owner e => owner = some (.source o) →
              (row ∈ m.exceptions ∧ row.Holds e.1 ↔ o < region.stop))
            (owners none s.code.items) m.code := by
  obtain ⟨cx, s, asm, rows, htabled⟩ := exists_tabled h
  refine ⟨cx, s, asm, rows, htabled, ?_⟩
  intro k region row hregion hrow o op hop hguards
  refine ⟨fun target hout => ⟨htabled.relayed hregion hguards hout, ?_⟩, ?_⟩
  · rintro rfl
    obtain ⟨start, hprepare, -⟩ := htabled.lowered
    obtain ⟨slots, slots', hbuild⟩ := build_of_prepare hprepare
    obtain ⟨known, hknown, hmem⟩ := (RegionTree.build_ok hbuild).2 o target hop k
      (htabled.relayed hregion hguards hout)
    cases hregion.symm.trans hknown
    exact hmem
  · refine (htabled.covers hordered).imp fun owner e hcovers howner => ?_
    subst howner
    have hiff : row.Holds e.1 ↔ region.start ≤ o ∧ o < region.stop :=
      hcovers k region row hregion hrow
    have hstart := Region.start_le_of_guards hguards
    rw [htabled.exceptions, List.mem_filter, decide_eq_true_eq]
    constructor
    · intro hin
      exact (hiff.mp hin.2).2
    · intro hstop
      have hholds := hiff.mpr ⟨hstart, hstop⟩
      -- a row that holds an address is kept
      exact ⟨⟨List.mem_of_getElem? hrow, Nat.lt_of_le_of_lt hholds.1 hholds.2⟩, hholds⟩

/-- Short names for the run-time support: names are compared when types are joined. -/
def shortNames : Config where
  objectClass := "O"
  throwableClass := "T"
  stringClass := "S"
  referenceCellClass := "R"
  universalExceptions := []
  exceptionRoot := none
  exceptionMapper := ⟨"U", "m", "d"⟩
  leaveSentinel := ⟨"L", "c", "i"⟩

/-- A catch clause and a finally clause for one range, with a leave in the former. -/
def catchThenFinally : Body where
  owner := .ref "Guard"
  name := "run"
  kind := .static
  params := []
  locals := []
  returns := none
  code := [(0, .loadNull), (1, .throw), (2, .leave 4), (3, .endFinally), (4, .ret)]
  handlers :=
    [{ kind := .typed, tryStart := 0, tryStop := 2, handlerStart := 2, handlerStop := 3,
       catchType := some (.generic "E" .resolved), filterStart := none },
     { kind := .cleanup, tryStart := 0, tryStop := 2, handlerStart := 3, handlerStop := 4,
       catchType := none, filterStart := none }]

theorem surveyed_catchThenFinally :
    surveyed shortNames (.ofConfig shortNames) .empty catchThenFinally = some
      ([{ start := 0, stop := 2,
          clauses :=
            [{ kind := .typed (.generic "E" .resolved), start := 2, stop := 3, handlerStart := 2 },
             { kind := .cleanup, start := 3, stop := 4, handlerStart := 3 }],
          leaveTargets := [4] }],
       [some (.source 0), some (.source 1), some (.handler 0), some (.handler 0),
        some (.handler 0), some (.source 2), some (.source 2), some (.source 2),
        some (.source 2), some (.source 3), some (.source 3), some (.source 3),
        some (.source 3), some (.source 3), some (.source 3), some (.source 4)]) := by
  cbv

/-- The row covers what is thrown in the protected range, and none of the code of the
leave in the catch clause, which the finally clause relays. -/
theorem finally_guards_catchThenFinally :
    ∃ m cx s asm row,
      (lowerMethod shortNames (.ofConfig shortNames) .empty catchThenFinally).result = .ok m ∧
      Tabled shortNames (.ofConfig shortNames) .empty catchThenFinally m cx s asm [row] ∧
      0 ∈ RegionTree.relays cx.regions.regions 2 4 ∧
      List.Forall₂ (fun owner e => owner = some (.source 1) →
          row ∈ m.exceptions ∧ row.Holds e.1) (owners none s.code.items) m.code ∧
      List.Forall₂ (fun owner e => owner = some (.source 2) →
          ¬ (row ∈ m.exceptions ∧ row.Holds e.1)) (owners none s.code.items) m.code := by
  obtain ⟨m, hm⟩ := exists_of_surveyed surveyed_catchThenFinally
  obtain ⟨cx, s, asm, rows, htabled, hguards⟩ := finally_guards hm (by decide)
  obtain ⟨hregions, -⟩ := htabled.eq_of_surveyed surveyed_catchThenFinally
  have hlength := htabled.length
  rw [hregions] at hlength
  obtain ⟨row, rfl⟩ := List.length_eq_one_iff.mp hlength
  have hregion := congrArg (·[0]?) hregions
  obtain ⟨-, hthrow⟩ := hguards 0 _ row hregion rfl 1 .throw (by simp [catchThenFinally]) rfl
  obtain ⟨hleave, hcatch⟩ :=
    hguards 0 _ row hregion rfl 2 (.leave 4) (by simp [catchThenFinally]) rfl
  refine ⟨m, cx, s, asm, row, hm, htabled, (hleave 4 rfl).1, ?_, ?_⟩
  · exact hthrow.imp fun owner e hiff howner => (hiff howner).mpr Nat.one_lt_two
  · exact hcatch.imp fun owner e hiff howner hin => Nat.lt_irrefl 2 ((hiff howner).mp hin)

/-- A leave in a catch clause that is relayed through the finally clause, with code
that no row covers. -/
theorem catch_uncovered_catchThenFinally :
    ∃ m cx s asm row e,
      (lowerMethod shortNames (.ofConfig shortNames) .empty catchThenFinally).result = .ok m ∧
      Tabled shortNames (.ofConfig shortNames) .empty catchThenFinally m cx s asm [row] ∧
      (2, .leave 4) ∈ catchThenFinally.code ∧ 0 ∈ RegionTree.relays cx.regions.regions 2 4 ∧
      (owners none s.code.items)[5]? = some (some (.source 2)) ∧ m.code[5]? = some e ∧
      ¬ row.Holds e.1 := by
  obtain ⟨m, hm⟩ := exists_of_surveyed surveyed_catchThenFinally
  obtain ⟨cx, s, asm, rows, htabled⟩ := exists_tabled hm
  obtain ⟨hregions, howners⟩ := htabled.eq_of_surveyed surveyed_catchThenFinally
  have hlength := htabled.length
  rw [hregions] at hlength
  obtain ⟨row, rfl⟩ := List.length_eq_one_iff.mp hlength
  have hregion := congrArg (·[0]?) hregions
  have howner := congrArg (·[5]?) howners
  obtain ⟨e, he, hcovers⟩ := forall₂_getElem?_left (htabled.covers (by decide)) howner
  have hnot : ¬ row.Holds e.1 := by
    rw [hcovers 0 _ row hregion rfl]
    show ¬ (0 ≤ 2 ∧ 2 < 2)
    omega
  exact ⟨m, cx, s, asm, row, e, hm, htabled, by simp [catchThenFinally],
    htabled.relayed hregion rfl rfl, howner, he, hnot⟩

end Results

end Lowering

end BytecodeBridge
