/-
An index leads back to the request it answered.

A compound constant holds indices only, and each of its parts may have
been in the pool before, at any index. What an index stands for is
therefore a matter of following it: `Pool.decode?` goes from entry to
entry down to the texts and gives the request that they spell out.

Two facts make indices and requests correspond. What a request is
answered with decodes to it from then on (`serves_request`), because no
entry is ever moved. And a request that was answered once is answered in
the same way again, whatever was added in between (`Settled`), because a
constant that the pool has is found before anything is added.
-/
import BytecodeBridge.Proofs.Instr.Operand
import BytecodeBridge.Proofs.Machine.Objects
import BytecodeBridge.Proofs.Pool.Representation

namespace BytecodeBridge

-- ==== the same answer again

/-- A computation that only adds to the pool and, once it has succeeded, gives the same
answer in every later pool, without adding to it. -/
structure Settled {α : Type} (x : PoolM α) : Prop where
  growing : Growing x
  again : ∀ p a p', x p = .ok a p' → ∀ q, p'.Grows q → x q = .ok a q

namespace Settled

variable {α β : Type} {x : PoolM α} {f : α → PoolM β}

theorem bind (hx : Settled x) (hf : ∀ a, Settled (f a)) : Settled (x >>= f) := by
  refine ⟨hx.growing.bind fun a => (hf a).growing, fun p b p' hrun q hq => ?_⟩
  obtain ⟨a, p₁, ha, hb⟩ := state_bind_ok hrun
  have hgrows := Pool.grows_of_ok (hf a).growing hb
  rw [state_ok_bind (hx.again p a p₁ ha q (hgrows.trans hq))]
  exact (hf a).again p₁ b p' hb q hq

end Settled

namespace Pool

variable {p q : Pool}

/-- A constant keeps its index. -/
theorem Grows.index (h : p.Grows q) {c : Constant} {i : Nat} (hc : p.index[c]? = some i) :
    q.index[c]? = some i := by
  induction h with
  | refl => exact hc
  | @tail r _ _ hadds ih =>
    cases hadds with
    | @push d hnew _ =>
      have hinsert : (r.push d).index[c]? = if d == c then some r.count else r.index[c]? :=
        Std.ExtHashMap.getElem?_insert
      -- what is added was missing, so it is another constant
      have hne : (d == c) = false := by
        refine beq_false_of_ne ?_
        rintro rfl
        cases hnew.symm.trans ih
      rw [hinsert, hne]
      exact ih

theorem settled_intern (c : Constant) : Settled (intern c) := by
  refine ⟨growing_intern c, fun p i p' hrun q hq => ?_⟩
  have hindex : p'.index[c]? = some i := by
    unfold intern at hrun
    split at hrun
    · next hfound =>
      cases hrun
      exact hfound
    · split at hrun
      · cases hrun
      · cases hrun
        exact Std.ExtHashMap.getElem?_insert_self
  unfold intern
  rw [hq.index hindex]

private theorem settled_classRef (name : String) : Settled (classRef name) :=
  (settled_intern _).bind fun _ => settled_intern _

private theorem settled_nameAndType (name descriptor : String) :
    Settled (nameAndType name descriptor) :=
  (settled_intern _).bind fun _ => (settled_intern _).bind fun _ => settled_intern _

theorem settled_request (r : Request) : Settled r.run := by
  cases r with
  | utf8 text | integer value | float bits | long value | double bits => exact settled_intern _
  | classRef name => exact settled_classRef name
  | stringRef text => exact (settled_intern _).bind fun _ => settled_intern _
  | fieldRef owner name descriptor | methodRef owner name descriptor onInterface =>
    exact (settled_classRef owner).bind fun _ =>
      (settled_nameAndType name descriptor).bind fun _ => settled_intern _

-- ==== decoding

/-- The name and the descriptor that an index names. -/
def nameAndType? (p : Pool) (i : Nat) : Option (String × String) :=
  match p.get? i with
  | some (.nameAndType name descriptor) => do
    return (← p.text? name, ← p.text? descriptor)
  | _ => none

/-- The request that a member of a class spells out. -/
def member? (p : Pool) (owner nameAndType : Nat) (request : String → String → String → Request) :
    Option Request := do
  let owner ← p.class? owner
  let (name, descriptor) ← p.nameAndType? nameAndType
  return request owner name descriptor

/-- The request that an index answers, found by following it. A name with its descriptor
answers none on its own. -/
def decode? (p : Pool) (i : Nat) : Option Request :=
  match p.get? i with
  | some (.utf8 text) => some (.utf8 text)
  | some (.integer value) => some (.integer value)
  | some (.float bits) => some (.float bits)
  | some (.long value) => some (.long value)
  | some (.double bits) => some (.double bits)
  | some (.classRef name) => (p.text? name).map .classRef
  | some (.stringRef text) => (p.text? text).map .stringRef
  | some (.fieldRef c nt) => p.member? c nt .fieldRef
  | some (.methodRef c nt) => p.member? c nt (.methodRef · · · false)
  | some (.interfaceMethodRef c nt) => p.member? c nt (.methodRef · · · true)
  | some (.nameAndType _ _) | none => none

theorem text?_eq_some_iff {i : Nat} {text : String} :
    p.text? i = some text ↔ p.get? i = some (.utf8 text) := by
  unfold text?
  split
  · next h => rw [h, Option.some.injEq, Option.some.injEq, Constant.utf8.injEq]
  · next h => exact ⟨nofun, fun hi => absurd hi (h text)⟩

private theorem class?_eq_some_iff {i : Nat} {name : String} :
    p.class? i = some name ↔ ∃ n, p.get? i = some (.classRef n) ∧ p.text? n = some name := by
  unfold class?
  split
  · next h => simp [h]
  · next h => exact ⟨nofun, fun ⟨n, hi, _⟩ => absurd hi (h n)⟩

theorem nameAndType?_eq_some_iff {i : Nat} {name descriptor : String} :
    p.nameAndType? i = some (name, descriptor) ↔ ∃ n d, p.get? i = some (.nameAndType n d) ∧
      p.text? n = some name ∧ p.text? d = some descriptor := by
  unfold nameAndType?
  split
  · next h => simp [h, Option.bind_eq_some_iff]
  · next h => exact ⟨nofun, fun ⟨n, d, hi, _⟩ => absurd hi (h n d)⟩

theorem member?_eq_some_iff {i j : Nat} {request : String → String → String → Request}
    {r : Request} : p.member? i j request = some r ↔ ∃ owner name descriptor,
      p.class? i = some owner ∧ p.nameAndType? j = some (name, descriptor) ∧
        request owner name descriptor = r := by
  simp [member?, Option.bind_eq_some_iff]

-- ==== later pools

section Later

variable (h : p.PartOf q)
include h

theorem PartOf.text? {i : Nat} {text : String} (ht : p.text? i = some text) :
    q.text? i = some text :=
  text?_eq_some_iff.mpr (h i _ (text?_eq_some_iff.mp ht))

theorem PartOf.class? {i : Nat} {name : String} (hc : p.class? i = some name) :
    q.class? i = some name := by
  obtain ⟨n, hi, hn⟩ := class?_eq_some_iff.mp hc
  exact class?_eq_some_iff.mpr ⟨n, h i _ hi, h.text? hn⟩

theorem PartOf.nameAndType? {i : Nat} {pair : String × String}
    (hpair : p.nameAndType? i = some pair) : q.nameAndType? i = some pair := by
  obtain ⟨n, d, hi, hn, hd⟩ := nameAndType?_eq_some_iff.mp hpair
  exact nameAndType?_eq_some_iff.mpr ⟨n, d, h i _ hi, h.text? hn, h.text? hd⟩

theorem PartOf.member? {i j : Nat} {request : String → String → String → Request} {r : Request}
    (hr : p.member? i j request = some r) : q.member? i j request = some r := by
  obtain ⟨owner, name, descriptor, hi, hj, heq⟩ := member?_eq_some_iff.mp hr
  exact member?_eq_some_iff.mpr ⟨owner, name, descriptor, h.class? hi, h.nameAndType? hj, heq⟩

/-- What an index decodes to, it goes on to decode to. -/
theorem PartOf.decode? {i : Nat} {r : Request} (hr : p.decode? i = some r) :
    q.decode? i = some r := by
  unfold Pool.decode? at hr ⊢
  cases hi : p.get? i with
  | none =>
    rw [hi] at hr
    cases hr
  | some c =>
    rw [hi] at hr
    rw [h i c hi]
    cases c with
    | classRef name | stringRef text =>
      obtain ⟨text, htext, rfl⟩ := Option.map_eq_some_iff.mp hr
      exact Option.map_eq_some_iff.mpr ⟨text, h.text? htext, rfl⟩
    | fieldRef c nt | methodRef c nt | interfaceMethodRef c nt => exact h.member? hr
    | _ => exact hr

end Later

-- ==== answers

theorem serves_text (text : String) : Serves (utf8 text) fun i q => q.text? i = some text where
  growing := growing_intern _
  serves _ _ q hp hrun := text?_eq_some_iff.mpr (get?_of_intern hp hrun (.refl q))

theorem serves_class (name : String) :
    Serves (classRef name) fun i q => q.class? i = some name where
  growing := growing_classRef name
  serves _ _ q hp hrun := class?_of_classRef hp hrun (.refl q)

theorem serves_pair (name descriptor : String) :
    Serves (nameAndType name descriptor) fun i q =>
      q.nameAndType? i = some (name, descriptor) := by
  refine (serves_text name).bind fun n => (serves_text descriptor).bind fun d => ?_
  refine ⟨growing_intern _, fun p i r hp hrun q hq hd p' hp' hn => ?_⟩
  exact nameAndType?_eq_some_iff.mpr
    ⟨n, d, get?_of_intern hp hrun (.refl r), hp'.text? hn, hq.text? hd⟩

theorem serves_plain {c : Constant} {r : Request}
    (h : ∀ {q : Pool} {i : Nat}, q.get? i = some c → q.decode? i = some r) :
    Serves (intern c) fun i q => q.decode? i = some r where
  growing := growing_intern c
  serves _ _ q hp hrun := h (get?_of_intern hp hrun (.refl q))

theorem serves_named (named : Nat → Constant) (request : String → Request)
    (h : ∀ {q : Pool} {i n : Nat}, q.get? i = some (named n) →
      q.decode? i = (q.text? n).map request) (text : String) :
    Serves (utf8 text >>= fun n => intern (named n)) fun i q =>
      q.decode? i = some (request text) := by
  refine (serves_text text).bind fun n =>
    ⟨growing_intern _, fun p i r hp hrun q hq htext => ?_⟩
  rw [h (get?_of_intern hp hrun (.refl r)), hq.text? htext]
  rfl

/-- A constant that holds the indices of a class, and of a name with its descriptor. -/
theorem serves_reference (member : Nat → Nat → Constant)
    (request : String → String → String → Request)
    (h : ∀ {q : Pool} {i c nt : Nat}, q.get? i = some (member c nt) →
      q.decode? i = q.member? c nt request) (owner name descriptor : String) :
    Serves (do
      let c ← classRef owner
      let nt ← nameAndType name descriptor
      intern (member c nt)) fun i q => q.decode? i = some (request owner name descriptor) := by
  refine (serves_class owner).bind fun c => (serves_pair name descriptor).bind fun nt =>
    ⟨growing_intern _, fun p i r hp hrun q hq hpair p' hp' hclass => ?_⟩
  rw [h (get?_of_intern hp hrun (.refl r))]
  exact member?_eq_some_iff.mpr
    ⟨owner, name, descriptor, hp'.class? hclass, hq.nameAndType? hpair, rfl⟩

/-- The answer to a request decodes to the request. -/
theorem serves_request (r : Request) : Serves r.run fun i q => q.decode? i = some r := by
  cases r with
  | utf8 text | integer value | float bits | long value | double bits =>
    exact serves_plain fun h => by rw [decode?, h]
  | classRef name => exact serves_named .classRef .classRef (fun h => by rw [decode?, h]) name
  | stringRef text => exact serves_named .stringRef .stringRef (fun h => by rw [decode?, h]) text
  | fieldRef owner name descriptor =>
    exact serves_reference .fieldRef .fieldRef (fun h => by rw [decode?, h]) owner name descriptor
  | methodRef owner name descriptor onInterface =>
    refine serves_reference
      (fun c nt => if onInterface then .interfaceMethodRef c nt else .methodRef c nt)
      (.methodRef · · · onInterface) (fun h => ?_) owner name descriptor
    cases onInterface with
    | false | true =>
      rw [decode?, h]
      rfl

-- ==== histories

/-- What becomes of a pool by requests, some of which may fail. -/
abbrev Asked : Pool → Pool → Prop :=
  Relation.ReflTransGen fun p q => ∃ r : Request, finalState (r.run p) = q

theorem Asked.grows (h : p.Asked q) : p.Grows q := by
  induction h with
  | refl => exact .refl
  | @tail q _ _ hstep ih =>
    obtain ⟨r, rfl⟩ := hstep
    exact ih.trans ((settled_request r).growing q)

/-- Indices and requests correspond. In every pool that a session comes to, the index that
a request is answered with decodes to the request, also after any further requests; and a
request that is made then and answered gets this index if and only if it is the same
request, of the same kind and for the same texts. -/
theorem decoded_of_session {marks : List Nat} (h : Session p marks) {r : Request} {i : Nat}
    {p₁ : Pool} (hr : r.run p = .ok i p₁) (hq : p₁.Asked q) :
    q.decode? i = some r ∧ ∀ (r' : Request) (j : Nat) (q' : Pool),
      r'.run q = .ok j q' → (j = i ↔ r' = r) := by
  have hp := h.formed.indexed
  obtain ⟨hp₁, -⟩ := (grows_of_ok (settled_request r).growing hr).indexed hp
  obtain ⟨hindexed, hpart⟩ := hq.grows.indexed hp₁
  have hdecoded : q.decode? i = some r := hpart.decode? ((serves_request r).serves p i p₁ hp hr)
  refine ⟨hdecoded, fun r' j q' hr' => ⟨?_, ?_⟩⟩
  · -- one index decodes to one request
    rintro rfl
    have hlater := (grows_of_ok (settled_request r').growing hr').indexed hindexed
    have hr'' := (serves_request r').serves q j q' hindexed hr'
    exact Option.some.inj (hr''.symm.trans (hlater.2.decode? hdecoded))
  · rintro rfl
    rw [(settled_request r').again p i p₁ hr q hq.grows] at hr'
    cases hr'
    rfl

/-- The index that a request is answered with. -/
def answer? (r : Request) (p : Pool) : Option Nat :=
  match r.run p with
  | .ok i _ => some i
  | .error _ _ => none

private theorem run_of_answer? {r : Request} {i : Nat} (h : answer? r p = some i) :
    r.run p = .ok i (finalState (r.run p)) := by
  unfold answer? at h
  cases hrun : r.run p with
  | ok j q =>
    rw [hrun] at h
    cases h
    rfl
  | error e q =>
    rw [hrun] at h
    cases h

/-- A class, and its name as a text. -/
def namesClass : Pool :=
  finalState (Request.run (.stringRef "Store") (finalState (Request.run (.classRef "Store") empty)))

/-- The same behind a method that was given up. -/
def dropsMethod : Pool :=
  (finalState (Request.run (.methodRef "Store" "put" "()V" false) namesClass)).rollback
    namesClass.checkpoint

/-- A method of an interface, and then a field of the same name. -/
def addsMembers : Pool :=
  finalState (Request.run (.fieldRef "Store" "put" "()V")
    (finalState (Request.run (.methodRef "Store" "put" "()V" true) dropsMethod)))

/-- The method of the interface is found behind the field, and no other request gets its
index. -/
theorem decoded_of_session_addsMembers :
    Session dropsMethod [namesClass.checkpoint] ∧
      answer? (.methodRef "Store" "put" "()V" true) dropsMethod = some 7 ∧
      addsMembers.decode? 7 = some (.methodRef "Store" "put" "()V" true) ∧
      ∀ r j, answer? r addsMembers = some j →
        (j = 7 ↔ r = .methodRef "Store" "put" "()V" true) := by
  have hlengths : namesClass.checkpoint ≤ (finalState
      (Request.run (.methodRef "Store" "put" "()V" false) namesClass)).checkpoint := by cbv
  have hsession : Session dropsMethod [namesClass.checkpoint] :=
    .rollback (.request _ (.checkpoint (.request _ (.request _ .start))))
      (List.mem_singleton.mpr rfl) hlengths
  have hmethod : answer? (.methodRef "Store" "put" "()V" true) dropsMethod = some 7 := by cbv
  obtain ⟨hdecoded, hsame⟩ := decoded_of_session (q := addsMembers) hsession
    (run_of_answer? hmethod) (.single ⟨.fieldRef "Store" "put" "()V", rfl⟩)
  exact ⟨hsession, hmethod, hdecoded, fun r j hj => hsame r j _ (run_of_answer? hj)⟩

end Pool

end BytecodeBridge
