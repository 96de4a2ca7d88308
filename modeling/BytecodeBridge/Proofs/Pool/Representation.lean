/-
The pool's entries and its index say the same.

A pool is formed entry by entry (`Formed`): each constant was missing when
it was added, there was room for it, and what it refers to was there
before. Requests only ever add such constants, also those that fail half
way, because a compound constant is asked for after its parts (`Forms`).
A rollback to a length undoes the last additions one by one, so what is left
was formed in the same way, whether or not the length was noted while the
pool had its present entries. Every law of the representation is therefore
an induction over additions, with nothing to say about rollbacks.
-/
import BytecodeBridge.Proofs.Evaluation
import BytecodeBridge.Proofs.Pool

namespace BytecodeBridge

-- ==== parts

/-- The constants that other constants refer to. -/
inductive PartKind where
  | utf8
  | classRef
  | nameAndType
deriving DecidableEq, Repr

def PartKind.admits : PartKind → Constant → Bool
  | utf8, .utf8 _ => true
  | classRef, .classRef _ => true
  | nameAndType, .nameAndType _ _ => true
  | _, _ => false

/-- The indices in a constant, each with what it has to name. -/
def Constant.parts : Constant → List (PartKind × Nat)
  | .classRef i | .stringRef i => [(.utf8, i)]
  | .nameAndType i j => [(.utf8, i), (.utf8, j)]
  | .fieldRef i j | .methodRef i j | .interfaceMethodRef i j => [(.classRef, i), (.nameAndType, j)]
  | _ => []

namespace Pool

variable {p q : Pool}

/-- The pool has what the parts have to name. -/
def HasParts (p : Pool) (parts : List (PartKind × Nat)) : Prop :=
  ∀ part ∈ parts, ∃ c, p.get? part.2 = some c ∧ part.1.admits c = true

theorem HasParts.mono {parts : List (PartKind × Nat)} (h : p.HasParts parts)
    (hpq : p.PartOf q) : q.HasParts parts := by
  intro part hpart
  obtain ⟨c, hc, hadmits⟩ := h part hpart
  exact ⟨c, hpq _ c hc, hadmits⟩

theorem HasParts.subset {parts fewer : List (PartKind × Nat)} (h : p.HasParts parts)
    (hfewer : fewer ⊆ parts) : p.HasParts fewer :=
  fun part hpart => h part (hfewer hpart)

-- ==== formation

/-- A pool made by adding constants it lacks, has room for and has the parts of. -/
inductive Formed : Pool → Prop where
  | empty : Formed empty
  | push {p : Pool} {c : Constant} (h : Formed p) (hnew : p.index[c]? = none)
      (hroom : p.count + c.size ≤ maxIndex) (hparts : p.HasParts c.parts) : Formed (p.push c)

theorem Formed.indexed (h : p.Formed) : p.Indexed := by
  induction h with
  | empty => exact indexed_empty
  | push _ hnew hroom _ ih => exact (Adds.indexed (.push hnew hroom) ih).1

/-- What is left of a formed pool behind a rollback was formed too. -/
theorem Formed.rollback (h : p.Formed) {mark : Nat} (hmark : mark ≤ p.checkpoint) :
    (p.rollback mark).Formed := by
  induction h with
  | empty =>
    rw [Nat.le_zero.mp hmark]
    exact .empty
  | @push p c h hnew hroom hparts ih =>
    rcases Nat.lt_or_ge p.checkpoint mark with hlt | hle
    · -- nothing was added since
      have heq : mark = (p.push c).checkpoint := Nat.le_antisymm hmark hlt
      rw [heq, rollback_checkpoint]
      exact h.push hnew hroom hparts
    · rw [rollback_push hnew hle]
      exact ih hle

-- ==== requests

/-- Where some parts are at hand, a computation leaves a formed pool, whatever comes of
it, and its answer names more parts. -/
def Forms (parts : List (PartKind × Nat)) (x : PoolM Nat)
    (gives : Nat → List (PartKind × Nat)) : Prop :=
  ∀ p, p.Formed → p.HasParts parts → (finalState (x p)).Formed ∧
    ∀ i q, x p = .ok i q → q.HasParts (gives i ++ parts)

/-- A constant whose parts are at hand can be added, and serves as a part itself. -/
theorem forms_intern {parts : List (PartKind × Nat)} {c : Constant} (kinds : List PartKind)
    (hparts : c.parts ⊆ parts) (hkinds : ∀ kind ∈ kinds, kind.admits c = true) :
    Forms parts (intern c) fun i => kinds.map (·, i) := by
  intro p hp hhas
  -- once the index names the constant, it is a part of each of the kinds
  have hgives : ∀ {i} {q : Pool}, q.get? i = some c → q.HasParts parts →
      q.HasParts (kinds.map (·, i) ++ parts) := by
    intro i q hget hq
    refine List.forall_mem_append.mpr ⟨fun part hpart => ?_, hq⟩
    obtain ⟨kind, hkind, rfl⟩ := List.mem_map.mp hpart
    exact ⟨c, hget, hkinds kind hkind⟩
  unfold intern
  cases hfound : p.index[c]? with
  | some i =>
    refine ⟨hp, fun j q hrun => ?_⟩
    cases hrun
    exact hgives (hp.indexed.names c i hfound) hhas
  | none =>
    dsimp only
    split
    · exact ⟨hp, nofun⟩
    · next hroom =>
      have hroom := Nat.not_lt.mp hroom
      refine ⟨hp.push hfound hroom (hhas.subset hparts), fun j q hrun => ?_⟩
      cases hrun
      refine hgives ?_ (hhas.mono (Adds.indexed (.push hfound hroom) hp.indexed).2)
      rw [get?_push, if_pos rfl]

theorem Forms.bind {parts : List (PartKind × Nat)} {x : PoolM Nat} {f : Nat → PoolM Nat}
    {gives gives' : Nat → List (PartKind × Nat)} (hx : Forms parts x gives)
    (hf : ∀ i, Forms (gives i ++ parts) (f i) gives') : Forms parts (x >>= f) gives' := by
  intro p hp hhas
  obtain ⟨hformed, hgives⟩ := hx p hp hhas
  cases hrun : x p with
  | error e q =>
    rw [state_error_bind hrun]
    rw [hrun] at hformed
    exact ⟨hformed, nofun⟩
  | ok i q =>
    rw [state_ok_bind hrun]
    rw [hrun] at hformed
    obtain ⟨hformed', hgives'⟩ := hf i q hformed (hgives i q hrun)
    refine ⟨hformed', fun j r hrun' => (hgives' j r hrun').subset ?_⟩
    exact List.append_subset.mpr ⟨List.subset_append_left ..,
      List.Subset.trans (List.subset_append_right ..) (List.subset_append_right ..)⟩

section Compound

variable (parts : List (PartKind × Nat))

theorem forms_utf8 (text : String) : Forms parts (utf8 text) fun i => [(.utf8, i)] :=
  forms_intern [.utf8] (List.nil_subset _) (by simp [PartKind.admits])

theorem forms_classRef (name : String) : Forms parts (classRef name) fun i => [(.classRef, i)] :=
  (forms_utf8 parts name).bind fun n =>
    forms_intern [.classRef] (by simp [Constant.parts]) (by simp [PartKind.admits])

private theorem forms_nameAndType (name descriptor : String) :
    Forms parts (nameAndType name descriptor) fun i => [(.nameAndType, i)] :=
  (forms_utf8 parts name).bind fun n => (forms_utf8 _ descriptor).bind fun d =>
    forms_intern [.nameAndType] (by simp [Constant.parts]) (by simp [PartKind.admits])

private theorem forms_member (owner name descriptor : String) {member : Nat → Nat → Constant}
    (hmember : ∀ c nt, (member c nt).parts = [(.classRef, c), (.nameAndType, nt)]) :
    Forms parts (do
      let c ← classRef owner
      let nt ← nameAndType name descriptor
      intern (member c nt)) fun _ => [] :=
  (forms_classRef parts owner).bind fun c => (forms_nameAndType _ name descriptor).bind fun nt =>
    forms_intern [] (by simp [hmember]) nofun

end Compound

/-- A request for a constant. -/
inductive Request where
  | utf8 (text : String)
  | integer (value : Int32)
  | float (bits : UInt32)
  | long (value : Int64)
  | double (bits : UInt64)
  | classRef (name : String)
  | stringRef (text : String)
  | fieldRef (owner name descriptor : String)
  | methodRef (owner name descriptor : String) (onInterface : Bool)

def Request.run : Request → PoolM Nat
  | .utf8 text => Pool.utf8 text
  | .integer value => Pool.integer value
  | .float bits => Pool.float bits
  | .long value => Pool.long value
  | .double bits => Pool.double bits
  | .classRef name => Pool.classRef name
  | .stringRef text => Pool.stringRef text
  | .fieldRef owner name descriptor => Pool.fieldRef owner name descriptor
  | .methodRef owner name descriptor onInterface => Pool.methodRef owner name descriptor onInterface

/-- Whatever comes of a request, it leaves a formed pool. -/
theorem Formed.request (h : p.Formed) (r : Request) : (finalState (r.run p)).Formed := by
  have hplain : ∀ {c : Constant}, c.parts = [] → (finalState (intern c p)).Formed := by
    intro c hc
    have hforms : Forms [] (intern c) fun i => [].map (·, i) :=
      forms_intern [] (List.subset_nil.mpr hc) nofun
    exact (hforms p h nofun).1
  cases r with
  | utf8 text | integer value | float bits | long value | double bits => exact hplain rfl
  | classRef name => exact (forms_classRef [] name p h nofun).1
  | stringRef text =>
    have hforms : Forms [] (Pool.stringRef text) fun _ => [] :=
      (forms_utf8 [] text).bind fun n => forms_intern [] (by simp [Constant.parts]) nofun
    exact (hforms p h nofun).1
  | fieldRef owner name descriptor =>
    exact (forms_member [] owner name descriptor (fun _ _ => rfl) p h nofun).1
  | methodRef owner name descriptor onInterface =>
    refine (forms_member [] owner name descriptor (fun c nt => ?_) p h nofun).1
    cases onInterface <;> rfl

-- ==== sessions

/-- The use of a pool from the start, with the lengths noted on the way: requests, some of
which may fail, notes of the length, and rollbacks to a length that was noted. -/
inductive Session : Pool → List Nat → Prop where
  | start : Session empty []
  | request {p : Pool} {marks : List Nat} (r : Request) (h : Session p marks) :
      Session (finalState (r.run p)) marks
  | checkpoint {p : Pool} {marks : List Nat} (h : Session p marks) :
      Session p (p.checkpoint :: marks)
  | rollback {p : Pool} {marks : List Nat} {mark : Nat} (h : Session p marks)
      (hmark : mark ∈ marks) (hle : mark ≤ p.checkpoint) : Session (p.rollback mark) marks

theorem Session.formed {marks : List Nat} (h : Session p marks) : p.Formed := by
  induction h with
  | start => exact .empty
  | request r _ ih => exact ih.request r
  | checkpoint _ ih => exact ih
  | rollback _ _ hle ih => exact ih.rollback hle

-- ==== laws

theorem toList_push (p : Pool) (c : Constant) : (p.push c).toList = p.toList ++ [(p.count, c)] :=
  List.reverse_cons ..

theorem mem_toList_push {c : Constant} {e : Nat × Constant} :
    e ∈ (p.push c).toList ↔ e ∈ p.toList ∨ e = (p.count, c) := by
  rw [toList_push, List.mem_append, List.mem_singleton]

/-- The next index is behind the last entry. -/
private theorem count_of_getLast? {e : Nat × Constant} (h : p.toList.getLast? = some e) :
    p.count = e.1 + e.2.size := by
  unfold toList at h
  rw [List.getLast?_reverse] at h
  unfold count
  cases hentries : p.entries with
  | nil =>
    rw [hentries] at h
    cases h
  | cons d rest =>
    rw [hentries] at h
    cases h
    rfl

namespace Formed

variable (h : p.Formed)
include h

theorem head_eq : ∀ e, p.toList.head? = some e → e.1 = 1 := by
  induction h with
  | empty => exact nofun
  | @push p c _ _ _ _ ih =>
    intro e he
    rw [toList_push] at he
    cases hlist : p.toList with
    | nil =>
      rw [hlist] at he
      cases he
      have hentries : p.entries = [] := List.reverse_eq_nil_iff.mp hlist
      unfold count
      rw [hentries]
    | cons d rest =>
      rw [hlist] at he ih
      exact ih e he

theorem chain : p.toList.IsChain fun a b => b.1 = a.1 + a.2.size := by
  induction h with
  | empty => exact .nil
  | @push p c _ _ _ _ ih =>
    rw [toList_push]
    refine List.isChain_append.mpr ⟨ih, .singleton _, fun a ha b hb => ?_⟩
    cases hb
    exact count_of_getLast? ha

theorem le_count : ∀ e ∈ p.toList, e.1 + e.2.size ≤ p.count := by
  induction h with
  | empty => exact nofun
  | @push p c _ _ _ _ ih =>
    intro e he
    rcases mem_toList_push.mp he with he | rfl
    · exact Nat.le_trans (ih e he) (Nat.le_add_right _ _)
    · exact Nat.le_refl _

/-- The index has the pairs of the entries. -/
theorem index_iff (c : Constant) (i : Nat) : p.index[c]? = some i ↔ (i, c) ∈ p.toList := by
  induction h generalizing i with
  | empty =>
    unfold Pool.empty
    rw [Std.ExtHashMap.getElem?_empty]
    exact ⟨nofun, nofun⟩
  | @push p d _ hnew _ _ ih =>
    have hinsert : (p.push d).index[c]? = if d == c then some p.count else p.index[c]? :=
      Std.ExtHashMap.getElem?_insert
    rw [hinsert, mem_toList_push]
    by_cases hdc : d = c
    · subst hdc
      have hmissing : ∀ i, (i, d) ∉ p.toList := by
        intro i hmem
        rw [(ih i).mpr hmem] at hnew
        cases hnew
      simp [hmissing, eq_comm]
    · simp [hdc, Ne.symm hdc, ih]

theorem nodup : (p.toList.map Prod.snd).Nodup := by
  induction h with
  | empty => exact .nil
  | @push p c h hnew _ _ ih =>
    rw [toList_push, List.map_append, List.map_singleton]
    refine List.nodup_append.mpr ⟨ih, List.nodup_singleton c, ?_⟩
    rintro a ha b hb rfl
    obtain ⟨⟨i, d⟩, he, rfl⟩ := List.mem_map.mp ha
    cases List.mem_singleton.mp hb
    rw [(h.index_iff _ i).mpr he] at hnew
    cases hnew

theorem room : ∀ e ∈ p.toList, e.1 + e.2.size ≤ maxIndex := by
  induction h with
  | empty => exact nofun
  | push _ _ hroom _ ih =>
    intro e he
    rcases mem_toList_push.mp he with he | rfl
    · exact ih e he
    · exact hroom

theorem get?_iff (i : Nat) (c : Constant) : p.get? i = some c ↔ (i, c) ∈ p.toList := by
  induction h with
  | empty => exact ⟨nofun, nofun⟩
  | @push p d h _ _ _ ih =>
    rw [get?_push, mem_toList_push, ← ih]
    split
    · next hi =>
      subst hi
      -- nothing stands at the next index yet
      have hnone : p.get? p.count ≠ some c := fun hget =>
        absurd (h.indexed.lt_count hget) (Nat.lt_irrefl _)
      simp [hnone, eq_comm]
    · next hi => simp [Ne.symm hi]

theorem parts_below : ∀ e ∈ p.toList, ∀ part ∈ e.2.parts,
    part.2 < e.1 ∧ ∃ d, (part.2, d) ∈ p.toList ∧ part.1.admits d = true := by
  induction h with
  | empty => exact nofun
  | @push p c h _ _ hparts ih =>
    intro e he part hpart
    rcases mem_toList_push.mp he with he | rfl
    · obtain ⟨hlt, d, hd, hadmits⟩ := ih e he part hpart
      exact ⟨hlt, d, mem_toList_push.mpr (.inl hd), hadmits⟩
    · obtain ⟨d, hd, hadmits⟩ := hparts part hpart
      exact ⟨h.indexed.lt_count hd, d, mem_toList_push.mpr (.inl ((h.get?_iff _ d).mp hd)),
        hadmits⟩

/-- No entry begins inside another. -/
theorem apart {d e : Nat × Constant} (hd : d ∈ p.toList) (he : e ∈ p.toList) (hlt : d.1 < e.1) :
    d.1 + d.2.size ≤ e.1 := by
  induction h with
  | empty => cases hd
  | @push p c h _ _ _ ih =>
    rcases mem_toList_push.mp hd with hd | rfl
    · rcases mem_toList_push.mp he with he | rfl
      · exact ih hd he
      · exact h.le_count d hd
    · rcases mem_toList_push.mp he with he | rfl
      · have hle := h.le_count e he
        omega
      · exact absurd hlt (Nat.lt_irrefl _)

end Formed

/-- In every pool of a session the first index is 1, and each is the one before it plus
the size of the entry there; no constant occurs twice; the index has exactly the pairs of
the entries; all entries end within the limit; what an entry refers to stands before it
and is of the kind needed; and an index names its entry, with none at the second half of a
wide entry and none from the count on. -/
theorem represented_of_session {marks : List Nat} (h : Session p marks) :
    ((∀ e, p.toList.head? = some e → e.1 = 1) ∧
        p.toList.IsChain fun a b => b.1 = a.1 + a.2.size) ∧
      (p.toList.map Prod.snd).Nodup ∧
      (∀ c i, p.index[c]? = some i ↔ (i, c) ∈ p.toList) ∧
      (∀ e ∈ p.toList, e.1 + e.2.size ≤ 65535) ∧
      (∀ e ∈ p.toList, ∀ part ∈ e.2.parts,
        part.2 < e.1 ∧ ∃ d, (part.2, d) ∈ p.toList ∧ part.1.admits d = true) ∧
      (∀ i c, p.get? i = some c ↔ (i, c) ∈ p.toList) ∧
      (∀ e ∈ p.toList, e.2.size = 2 → p.get? (e.1 + 1) = none) ∧
      ∀ i, p.count ≤ i → p.get? i = none := by
  have hp := h.formed
  refine ⟨⟨hp.head_eq, hp.chain⟩, hp.nodup, hp.index_iff, hp.room, hp.parts_below, hp.get?_iff,
    fun e he hwide => ?_, fun i hi => ?_⟩
  · cases hget : p.get? (e.1 + 1) with
    | none => rfl
    | some d =>
      have hd := (hp.get?_iff _ d).mp hget
      have hapart := hp.apart he hd (Nat.lt_succ_self e.1)
      dsimp only at hapart
      omega
  · cases hget : p.get? i with
    | none => rfl
    | some d => exact absurd (hp.indexed.lt_count hget) (Nat.not_lt.mpr hi)

/-- The pool of a text that is kept, and behind it a method and a number. -/
def keepsText : Pool :=
  finalState (Request.run (.stringRef "kept") empty)

def addsMethod : Pool :=
  finalState (Request.run (.double 0)
    (finalState (Request.run (.methodRef "Store" "put" "()V" false) keepsText)))

/-- Behind a rollback the name of the method is asked for on its own, and a wide number. -/
def asksAgain : Pool :=
  finalState (Request.run (.long 7)
    (finalState (Request.run (.utf8 "put") (addsMethod.rollback keepsText.checkpoint))))

/-- The name is at the first index that was given up, and found there. -/
theorem represented_of_session_asksAgain :
    Session asksAgain [keepsText.checkpoint] ∧
      asksAgain.toList = [(1, .utf8 "kept"), (2, .stringRef 1), (3, .utf8 "put"), (4, .long 7)] ∧
      asksAgain.index[Constant.utf8 "put"]? = some 3 ∧ asksAgain.get? 5 = none := by
  have hlengths : keepsText.checkpoint ≤ addsMethod.checkpoint := by cbv
  have hsession : Session asksAgain [keepsText.checkpoint] :=
    .request _ (.request _ (.rollback (.request _ (.request _ (.checkpoint (.request _ .start))))
      (List.mem_singleton.mpr rfl) hlengths))
  have hlist : asksAgain.toList
      = [(1, .utf8 "kept"), (2, .stringRef 1), (3, .utf8 "put"), (4, .long 7)] := by cbv
  obtain ⟨-, -, hindex, -, -, -, hwide, -⟩ := represented_of_session hsession
  rw [hlist] at hindex hwide
  exact ⟨hsession, hlist, (hindex _ _).mpr (by simp), hwide (4, .long 7) (by simp) rfl⟩

end Pool

end BytecodeBridge
