/-
What becomes of the receiver on the paths of a constructor.

A path through the source starts at the first operation and follows the
edges of the control flow. On its way to a return the receiver of a
constructor has to stop being under construction, as returning with it is
refused. There are three ways for that. A constructor is called on the
object; the slot of the receiver is stored over; or the path comes to a
label where it joins another on which one of these has happened, and where
the merged frame knows nothing of the slot any more. After that the path
may return without the object having been initialised: a return is refused
only where the frame still says `uninitThis`.
-/
import BytecodeBridge.Proofs.Lowering.Receiver
import BytecodeBridge.Proofs.Lowering.Publication

namespace BytecodeBridge

/-- An operation goes on to the one behind it. -/
def Op.goesOn : Op → Bool
  | .jump _ | .ret | .throw | .rethrow | .leave _ | .endFinally | .endFilter => false
  | _ => true

namespace Lowering

section Paths

variable {config : Config} {T : TypeTable} {pool : Pool} {body : Body} {m : Method}
  {e e' : Nat × Op} {cx : Context} {start before entry after final : LowerState}

-- ==== the owner

theorem Visit.housed (h : Visit config T pool body e cx start before entry after final)
    (hkind : body.kind ≠ .static) {s : LowerState} {p : List Label}
    (hsteps : CodeSteps cx body.code (start, []) (s, p)) : Housed body.owner s.slots := by
  obtain ⟨locals, regions, targets, slots, hlayout, -, -, hstart⟩ := prepare_parts h.prepared
  refine .codeSteps ?_ hsteps
  rw [hstart]
  exact ((layoutSlots_ok hlayout).1.housed hkind).1

/-- A method that is accepted is of a type that can be written down. -/
theorem Visit.owner_ne_top (h : Visit config T pool body e cx start before entry after final)
    (hkind : body.kind ≠ .static) (he : e ∈ body.code)
    {s : LowerState} (hfinish : finish body.targetName cx final = .ok m s) :
    body.owner ≠ .top := by
  obtain ⟨p, hentry⟩ := h.stepsEntry he
  obtain ⟨q, hafter⟩ := h.stepsFinal he p
  have hhoused := h.housed hkind (hentry.trans hafter)
  obtain ⟨⟨asm, frames, hfinished⟩, -⟩ := exists_finished hfinish
  have hnamed : (0, "this", body.owner) ∈ final.slots.named := by
    refine List.mem_filterMap.mpr ⟨(0, ⟨.argument, some "this", body.owner⟩), ?_, ?_⟩
    · exact Std.TreeMap.mem_toList_iff_getElem?_eq_some.mpr hhoused.receiver
    · simp [hhoused.written]
  obtain ⟨d, hd⟩ := hfinished.named _ hnamed
  intro htop
  rw [htop] at hd
  cases hd

-- ==== paths

/-- The code of an offset is lowered against a frame in which the receiver is not
initialised. -/
def UnderConstruction (config : Config) (T : TypeTable) (pool : Pool) (body : Body) (o : Nat) :
    Prop :=
  ∃ entry, entered? config T pool body o = some entry ∧ Raw entry.frames.live.locals

/-- An operation that calls a constructor on the object under construction. -/
def Constructs (config : Config) (T : TypeTable) (pool : Pool) (body : Body) (e : Nat × Op) :
    Prop :=
  ∃ method virtual entry, e.2 = .call method virtual ∧
    entered? config T pool body e.1 = some entry ∧ Initialises method entry.frames.live.stack

/-- One operation comes after another in the source: the one behind it, or one that it
transfers to. -/
inductive Flows (body : Body) (e e' : Nat × Op) : Prop where
  | falls (hgoes : e.2.goesOn = true) (hnext : body.following e.1 = some e'.1)
      (hin : e' ∈ body.code)
  | transfers (htarget : e'.1 ∈ e.2.targets) (hin : e' ∈ body.code)

theorem Flows.mem (h : Flows body e e') : e' ∈ body.code := by
  cases h with
  | falls _ _ hin | transfers _ hin => exact hin

/-- While nothing was done about it, the receiver stays under construction on every path,
up to where paths join. -/
private theorem underConstruction_of_flows (h : (lowerMethod config T pool body).result = .ok m)
    (hordered : body.code.Pairwise fun a b => a.1 < b.1) (hkind : body.kind ≠ .static)
    (hnone : body.handlers = []) (he : e ∈ body.code) (hflows : Flows body e e')
    (hraw : UnderConstruction config T pool body e.1) (hstore : e.2 ≠ .storeArg 0)
    (hcall : ¬ Constructs config T pool body e) :
    UnderConstruction config T pool body e'.1 ∨ Joined config T pool body e'.1 := by
  obtain ⟨cx, start, before, entry, after, final, hvisit, s, hfinish⟩ := exists_visit h hordered he
  obtain ⟨before', entry', after', hvisit'⟩ := hvisit.exists_other hordered hflows.mem
  rcases (hvisit'.arrival hnone).joins_or_passes with hframe | ⟨hlive, htarget⟩
  · exact .inr (hvisit'.joined hflows.mem hnone hframe)
  · cases hflows with
    | transfers hin hmem =>
      -- what is transferred to is not passed through
      obtain ⟨-, rfl, hstarted⟩ := hvisit'.started
      cases htarget.symm.trans (hstarted.prepared.targets e.1 e.2 he e'.1 hin)
    | falls hgoes hnext hmem =>
      cases hvisit.next hordered hvisit' he hnext
      obtain ⟨entry₀, hentered, hraw⟩ := hraw
      cases hvisit.entered.symm.trans hentered
      obtain ⟨-, rfl, hstarted⟩ := hvisit.started
      obtain ⟨p, hsteps⟩ := hvisit.stepsEntry he
      refine .inl ⟨entry', hvisit'.entered, ?_⟩
      rw [hlive]
      exact raw_of_lowerOp (hstarted.prepared.atOffset e.1) (hstarted.noRegions hnone) he
        (hsteps.settled hstarted.settled) (backed_atOffset.mpr (hstarted.backed.codeSteps hsteps))
        (hvisit.housed hkind hsteps) (hvisit.owner_ne_top hkind he hfinish) hraw
        hstore (fun method virtual hop hinit =>
          hcall ⟨method, virtual, entry, hop, hvisit.entered, hinit⟩)
        hvisit.lowers

/-- The first operation is entered with the receiver under construction, unless its label
is transferred to. -/
private theorem underConstruction_first (h : (lowerMethod config T pool body).result = .ok m)
    (hordered : body.code.Pairwise fun a b => a.1 < b.1) (hkind : body.kind = .constructor)
    (hclass : body.owner.isValue = false) (hnone : body.handlers = [])
    (hfirst : body.code.head? = some e) :
    UnderConstruction config T pool body e.1 ∨ Joined config T pool body e.1 := by
  obtain ⟨rest, hcode⟩ := List.head?_eq_some_iff.mp hfirst
  have he : e ∈ body.code := by
    rw [hcode]
    exact .head _
  obtain ⟨cx, start, before, entry, after, final, hvisit, -⟩ := exists_visit h hordered he
  rcases (hvisit.arrival hnone).joins_or_passes with hframe | ⟨hlive, -⟩
  · exact .inr (hvisit.joined he hnone hframe)
  · -- nothing is lowered before the first operation
    have hreached := hvisit.reached
    rw [Body.before, hcode, List.takeWhile_cons_of_neg (by simp)] at hreached
    cases hreached
    obtain ⟨locals, regions, targets, slots, hlayout, -, -, rfl⟩ := prepare_parts hvisit.prepared
    refine .inl ⟨entry, hvisit.entered, ?_⟩
    rw [hlive]
    have hreceiver : receiverType body = .uninitThis := by
      unfold receiverType
      rw [hkind, hclass]
      rfl
    have hstatic : body.kind ≠ .static := by
      rw [hkind]
      intro heq
      cases heq
    exact ((layoutSlots_ok hlayout).1.housed hstatic).2.trans (congrArg some hreceiver)

/-- A constructor does not return while the receiver is under construction. -/
private theorem not_underConstruction_ret (h : (lowerMethod config T pool body).result = .ok m)
    (hordered : body.code.Pairwise fun a b => a.1 < b.1) (hkind : body.kind = .constructor)
    {o : Nat} (he : (o, Op.ret) ∈ body.code) : ¬ UnderConstruction config T pool body o := by
  rintro ⟨entry₀, hentered, hraw⟩
  obtain ⟨cx, start, before, entry, after, final, hvisit, -⟩ := exists_visit h hordered he
  cases hvisit.entered.symm.trans hentered
  obtain ⟨-, rfl, -⟩ := hvisit.started
  have hany : entry₀.frames.live.locals.entries.any (fun e => e.2 == .uninitThis) = true :=
    List.any_eq_true.mpr ⟨(0, .uninitThis), SlotMap.mem_entries.mpr hraw, by simp⟩
  obtain ⟨body', s₁, hread, hrun⟩ := lower_bind_ok hvisit.lowers
  cases hread
  change (if cx.body.kind = .constructor then _ else _ : LowerM Unit) _ _ = _ at hrun
  rw [if_pos hkind] at hrun
  obtain ⟨_, s₁, hget, hrun⟩ := lower_bind_ok hrun
  cases hget
  rw [if_pos hany] at hrun
  cases hrun

/-- Where the receiver stops being under construction on a path: it is stored over, a
constructor is called on it, or paths join of which not all have it under construction. -/
def Settles (config : Config) (T : TypeTable) (pool : Pool) (body : Body) (e : Nat × Op) : Prop :=
  UnderConstruction config T pool body e.1 ∧
      (e.2 = .storeArg 0 ∨ Constructs config T pool body e) ∨
    ¬ UnderConstruction config T pool body e.1 ∧ Joined config T pool body e.1

private theorem exists_settles (h : (lowerMethod config T pool body).result = .ok m)
    (hordered : body.code.Pairwise fun a b => a.1 < b.1) (hkind : body.kind = .constructor)
    (hnone : body.handlers = []) {rest : List (Nat × Op)} {o : Nat} (he : e ∈ body.code)
    (hstart : UnderConstruction config T pool body e.1 ∨ Joined config T pool body e.1)
    (hchain : (e :: rest).IsChain (Flows body)) (hend : (e :: rest).getLast? = some (o, .ret)) :
    ∃ pre d post, e :: rest = pre ++ d :: post ∧
      (∀ c ∈ pre, UnderConstruction config T pool body c.1) ∧ Settles config T pool body d := by
  have hstatic : body.kind ≠ .static := by
    rw [hkind]
    exact nofun
  induction rest generalizing e with
  | nil =>
    cases hend
    have hraw := not_underConstruction_ret h hordered hkind he
    exact ⟨[], _, [], rfl, nofun, .inr ⟨hraw, hstart.resolve_left hraw⟩⟩
  | cons e' rest ih =>
    obtain ⟨hflows, hchain'⟩ := List.isChain_cons_cons.mp hchain
    by_cases hraw : UnderConstruction config T pool body e.1
    · by_cases hdone : e.2 = .storeArg 0 ∨ Constructs config T pool body e
      · exact ⟨[], e, e' :: rest, rfl, nofun, .inl ⟨hraw, hdone⟩⟩
      · obtain ⟨hstore, hcall⟩ := not_or.mp hdone
        have hnext :=
          underConstruction_of_flows h hordered hstatic hnone he hflows hraw hstore hcall
        rw [List.getLast?_cons_cons] at hend
        obtain ⟨pre, d, post, hsplit, hpre, hd⟩ := ih hflows.mem hnext hchain' hend
        refine ⟨e :: pre, d, post, by rw [hsplit]; rfl, ?_, hd⟩
        exact List.forall_mem_cons.mpr ⟨hraw, hpre⟩
    · exact ⟨[], e, e' :: rest, rfl, nofun, .inr ⟨hraw, hstart.resolve_left hraw⟩⟩

/-- On every path from the start of a constructor to a return, with ascending offsets, the
receiver is under construction up to an operation that stores over it, that calls a
constructor on it, or where paths join of which not all have it under construction. -/
theorem constructor_path_settles (h : (lowerMethod config T pool body).result = .ok m)
    (hordered : body.code.Pairwise fun a b => a.1 < b.1) (hkind : body.kind = .constructor)
    (hclass : body.owner.isValue = false) (hnone : body.handlers = [])
    {path : List (Nat × Op)} {o : Nat} (hstart : path.head? = body.code.head?)
    (hchain : path.IsChain (Flows body)) (hend : path.getLast? = some (o, .ret)) :
    ∃ pre e post, path = pre ++ e :: post ∧
      (∀ d ∈ pre, UnderConstruction config T pool body d.1) ∧ Settles config T pool body e := by
  cases path with
  | nil => cases hend
  | cons e rest =>
    have hfirst : body.code.head? = some e := hstart.symm
    have he : e ∈ body.code := List.mem_of_mem_head? hfirst
    exact exists_settles h hordered hkind hnone he
      (underConstruction_first h hordered hkind hclass hnone hfirst) hchain hend

end Paths

/-- A constructor that stores over its receiver on one of two paths, and calls nothing. -/
def abandonsReceiver : Body where
  owner := .ref "Half"
  name := ".ctor"
  kind := .constructor
  params := [⟨some "skip", .prim .int32⟩]
  locals := []
  returns := none
  code := [(0, .loadArg 1), (1, .branchIf true 4), (2, .loadNull), (3, .storeArg 0), (4, .ret)]
  handlers := []

theorem previewed_abandonsReceiver :
    (previewed {} (.ofConfig {}) abandonsReceiver).isSome = true := by
  cbv

/-- The path around the store returns, although nothing is called on it: at the return the
receiver is not known any more. -/
theorem constructor_path_settles_abandonsReceiver :
    ∃ m, (lowerMethod {} (.ofConfig {}) .empty abandonsReceiver).result = .ok m ∧
      (∀ e ∈ abandonsReceiver.code, ∀ method virtual, e.2 ≠ .call method virtual) ∧
      [(0, .loadArg 1), (1, .branchIf true 4), (4, .ret)].IsChain (Flows abandonsReceiver) ∧
      ∃ pre e post, [(0, .loadArg 1), (1, .branchIf true 4), (4, .ret)] = pre ++ e :: post ∧
        (∀ d ∈ pre, UnderConstruction {} (.ofConfig {}) .empty abandonsReceiver d.1) ∧
        Settles {} (.ofConfig {}) .empty abandonsReceiver e := by
  obtain ⟨m, hm⟩ := exists_of_isSome previewed_abandonsReceiver
  have hchain : [(0, .loadArg 1), (1, .branchIf true 4), (4, .ret)].IsChain
      (Flows abandonsReceiver) := by
    refine .cons_cons (.falls rfl rfl ?_) (.cons_cons (.transfers ?_ ?_) (.singleton _))
    · simp [abandonsReceiver]
    · exact List.mem_cons_self
    · simp [abandonsReceiver]
  refine ⟨m, hm, ?_, hchain, constructor_path_settles hm (by decide) rfl rfl rfl rfl hchain rfl⟩
  simp [abandonsReceiver]

end Lowering

end BytecodeBridge