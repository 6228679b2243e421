import LocalKeyValue.HydraDB.Requests

/-!
# The Request Protocol of HydraDB

How a client's PUTs and GETs travel to the HydraDB server. As in FaRM a client
owns one record of the request area, writes a request into it and goes on
without waiting for the answer, and the server goes round the records. Here a
record has the kind of the request too. The server reads it in a second access
and a third, and the key in one more; its 1 goes into the record before a search
and after an update. A record with another kind is passed over and stays.

What lies in a record must not change between these accesses, or a PUT may be
handled as a GET of its key, and the other way round. Where a client starts a
request when the server is done with its last one, and writes it into a record
that reads 0, it does not change: of each client, what it has started is what the
server has handled, then the one request that is on its way, with the kind and
key it was started with.

## Main definitions

* `Ask`: A request a client makes.
* `Client`, `State`, `clientStep`, `serverStep`, `step`: The two sides.
* `recordFree`: What a client has to wait for.
* `ViewOk`, `QueueOk`: The requests of a client form a queue of at most one.

## Theorems

* `serverStep_cases`: What an access of the server does.
* `queueOk_step`: Each access keeps the queues.
* `protocol_run_serial`: What is handled in a run, and in which order.
* `hydraHandler_apply`: The handler is the server's.
-/

namespace LocalKeyValue

namespace HydraDB

namespace Protocol

open CInt Run

/-- The fields of a `request_s` that the server reads. -/
structure Record where
  req : Int
  key : Int
deriving DecidableEq

/-- A request: a PUT or a GET of a key, which is not the 0 of a free record. -/
structure Ask where
  put : Bool
  key : Int
  ne_zero : key ≠ 0
  inInt32 : InInt32 key

def Ask.record (a : Ask) : Record where
  req := if a.put then 1 else 2
  key := a.key

inductive ClientPc
  | start
  | write
  | reset
  | wait
deriving DecidableEq

/-- A client: the requests still to make, its request record, the address of its
    response area and the word there, and the requests it has begun. -/
structure Client where
  pc : ClientPc
  todo : List Ask
  reqArea : Record
  respArea : { a : Nat // a ≠ 0 }
  resp : Int
  started : List Record

/-- Where the server is in its loop. -/
inductive ServerPc
  | scan
  | seen
  | notPut
  | put
  | get
  | putKey (k : Int)
  | getKey (k : Int)
  | getMarked (k : Int)
  | updated
  | answered
  | acked
deriving DecidableEq

/-- Both sides. `log` are the requests handled, with the record they came from;
    `unread c` is the request in record `c` whose key the server has not read;
    `overwritten` says that a store has hit such a request. -/
structure State (σ : Type*) where
  client : Nat → Client
  serverReqArea : Nat → Record
  i : Int
  pc : ServerPc
  store : σ
  log : List (Nat × Record)
  unread : Nat → Option Record
  overwritten : Bool

inductive Action
  | client (c : Nat)
  | server
deriving DecidableEq

variable {σ : Type*}

def State.slot (s : State σ) : Nat :=
  s.i.toNat

def State.setClient (s : State σ) (c : Nat) (cl : Client) : State σ :=
  { s with client := Function.update s.client c cl }

/-- A store to record `c`. A request that lies there unread is gone. -/
def State.setRecord (s : State σ) (c : Nat) (r : Record) (unread : Option Record) : State σ :=
  { s with
    serverReqArea := Function.update s.serverReqArea c r
    unread := Function.update s.unread c unread
    overwritten := s.overwritten || (s.unread c).isSome }

/-- A store to the key of the record the server is at. -/
def State.setKey (s : State σ) (key : Int) : State σ :=
  s.setRecord s.slot { s.serverReqArea s.slot with key := key } none

/-- One access of client `c`: fill the request record, write it to the server,
    reset the response, test for the answer. The last tests the address. -/
def clientStep (s : State σ) (c : Nat) : Option (State σ) :=
  let cl := s.client c
  match cl.pc with
  | .start =>
    match cl.todo with
    | [] => none
    | a :: as => some (s.setClient c { cl with
        pc := .write, todo := as, reqArea := a.record, started := cl.started ++ [a.record] })
  | .write => some ((s.setRecord c cl.reqArea (some cl.reqArea)).setClient c
      { cl with pc := .reset })
  | .reset => some (s.setClient c { cl with pc := .wait, resp := 0 })
  | .wait => if cl.respArea.val = 0 then some s else some (s.setClient c { cl with pc := .start })

/-- What the server does with a request: the update of a PUT, the search of a GET. -/
structure Handler (σ : Type*) where
  put : σ → Int → Option σ
  get : σ → Int → Option σ

/-- A request by itself. -/
def Handler.apply (hd : Handler σ) (st : σ) (r : Record) : Option σ :=
  if r.req = 1 then hd.put st r.key else hd.get st r.key

/-- One access of the server that serves `n` clients. -/
def serverStep (n : Nat) (hd : Handler σ) (s : State σ) : Option (State σ) :=
  match s.pc with
  | .scan =>
    let i := (s.i + 1).tmod n
    some { s with i := i, pc := if (s.serverReqArea i.toNat).key = 0 then .scan else .seen }
  | .seen => some { s with
      pc := if (s.serverReqArea s.slot).req = 1 then .put else .notPut }
  | .notPut => some { s with
      pc := if (s.serverReqArea s.slot).req = 2 then .get else .scan }
  | .put => some { s with
      pc := .putKey (toInt32 (s.serverReqArea s.slot).key)
      unread := Function.update s.unread s.slot none }
  | .get => some { s with
      pc := .getKey (toInt32 (s.serverReqArea s.slot).key)
      unread := Function.update s.unread s.slot none }
  | .putKey k => (hd.put s.store k).map fun st => { s with
      pc := .updated, store := st, log := s.log ++ [(s.slot, ⟨1, k⟩)] }
  | .getKey k => some { s.setKey 1 with pc := .getMarked k }
  | .getMarked k => (hd.get s.store k).map fun st => { s with
      pc := .answered, store := st, log := s.log ++ [(s.slot, ⟨2, k⟩)] }
  | .updated => some { s.setKey 1 with pc := .answered }
  | .answered =>
    let cl := s.client s.slot
    -- What is sent is the record at the start of the area, and its first word is `req`.
    some { s.setClient s.slot { cl with resp := (s.serverReqArea 0).req } with pc := .acked }
  | .acked => some { s.setKey 0 with pc := .scan }

def step (n : Nat) (hd : Handler σ) (s : State σ) : Action → Option (State σ)
  | .client c => if c < n then clientStep s c else none
  | .server => serverStep n hd s

def Client.init (respArea : { a : Nat // a ≠ 0 }) (todo : List Ask) : Client where
  pc := .start
  todo := todo
  reqArea := ⟨0, 0⟩
  respArea := respArea
  resp := 0
  started := []

/-- The buffers are zero and the server has not looked at a record. -/
def State.init (respArea : Nat → { a : Nat // a ≠ 0 }) (todo : Nat → List Ask) (store : σ) :
    State σ where
  client := fun c => Client.init (respArea c) (todo c)
  serverReqArea := fun _ => ⟨0, 0⟩
  i := -1
  pc := .scan
  store := store
  log := []
  unread := fun _ => none
  overwritten := false

/-- The requests of client `c` that were handled, in order. -/
def handledOf (s : State σ) (c : Nat) : List Record :=
  (s.log.filter fun p => p.1 = c).map Prod.snd

/-! ## Waiting -/

/-- The request the server has read and not handled. -/
def ServerPc.hand : ServerPc → Option Record
  | .putKey k => some ⟨1, k⟩
  | .getKey k => some ⟨2, k⟩
  | .getMarked k => some ⟨2, k⟩
  | _ => none

/-- The server has read the request in its record and not freed the record. -/
def ServerPc.holds : ServerPc → Bool
  | .putKey _ | .getKey _ | .getMarked _ | .updated | .answered | .acked => true
  | _ => false

/-- The server is done with client `c`'s request but has not freed its record. -/
def freeing (s : State σ) (c : Nat) : Prop :=
  s.slot = c ∧ s.pc.holds = true ∧ s.pc.hand = none

instance (s : State σ) (c : Nat) : Decidable (freeing s c) :=
  inferInstanceAs (Decidable (_ ∧ _))

/-- A client begins a request when the server is done with its last one, and writes
    it into a record that reads 0. -/
def recordFree (s : State σ) : Action → Prop
  | .client c => ((s.client c).pc = .start → (s.serverReqArea c).key = 0 ∨ freeing s c) ∧
      ((s.client c).pc = .write → (s.serverReqArea c).key = 0)
  | .server => True

instance (s : State σ) (a : Action) : Decidable (recordFree s a) :=
  match a with
  | .client c => inferInstanceAs (Decidable
      (((s.client c).pc = .start → (s.serverReqArea c).key = 0 ∨ freeing s c) ∧
        ((s.client c).pc = .write → (s.serverReqArea c).key = 0)))
  | .server => isTrue trivial

/-! ## The queue of a client -/

/-- The server has record `c`'s request, or has handled it. -/
def held (s : State σ) (c : Nat) : Prop :=
  s.slot = c ∧ s.pc.holds = true

def inHand (s : State σ) (c : Nat) : List Record :=
  if s.slot = c then s.pc.hand.toList else []

def unwritten (s : State σ) (c : Nat) : List Record :=
  if (s.client c).pc = .write then [(s.client c).reqArea] else []

/-- The requests of client `c` on their way, the oldest first. -/
def pipeline (s : State σ) (c : Nat) : List Record :=
  inHand s c ++ (s.unread c).toList ++ unwritten s c

/-- A request the server handles. -/
def Record.Valid (r : Record) : Prop :=
  r.key ≠ 0 ∧ InInt32 r.key ∧ (r.req = 1 ∨ r.req = 2)

theorem Ask.record_valid (a : Ask) : a.record.Valid := by
  refine ⟨a.ne_zero, a.inInt32, ?_⟩
  rw [Ask.record]
  cases a.put with
  | true => exact Or.inl rfl
  | false => exact Or.inr rfl

structure ViewOk (s : State σ) (c : Nat) : Prop where
  conserved : (s.client c).started = handledOf s c ++ pipeline s c
  single : (pipeline s c).length ≤ 1
  writing : (s.client c).pc = .write → (s.client c).reqArea.Valid
  unread_record : ∀ r, s.unread c = some r → s.serverReqArea c = r ∧ r.Valid
  held_key : held s c → (s.serverReqArea c).key ≠ 0 ∧ s.unread c = none
  owner : (s.serverReqArea c).key ≠ 0 → s.unread c = none → held s c

/-- Every client's requests, and what the server knows of the record it looks at. -/
structure QueueOk (s : State σ) : Prop where
  view : ∀ c, ViewOk s c
  looking : s.pc ≠ .scan → (s.serverReqArea s.slot).key ≠ 0
  put : s.pc = .put → (s.serverReqArea s.slot).req = 1
  get : s.pc = .get → (s.serverReqArea s.slot).req = 2
  kept : s.overwritten = false

theorem hand_eq_none {pc : ServerPc} (h : pc.holds = false) : pc.hand = none := by
  cases pc with
  | putKey k | getKey k | getMarked k =>
      exact absurd h (by simp only [ServerPc.holds, Bool.true_eq_false, not_false_eq_true])
  | scan | seen | notPut | put | get | updated | answered | acked => rfl

theorem queueOk_init (respArea : Nat → { a : Nat // a ≠ 0 }) (todo : Nat → List Ask) (store : σ) :
    QueueOk (State.init respArea todo store) := by
  refine ⟨fun c => ?_, fun h => absurd rfl h, fun h => ?_, fun h => ?_, rfl⟩
  · have hpipe : pipeline (State.init respArea todo store) c = [] := by
      have hhand : inHand (State.init respArea todo store) c = [] := ite_self []
      rw [pipeline, hhand]
      rfl
    refine ⟨?_, ?_, fun h => ?_, fun r h => ?_, fun h => ?_, fun h => absurd rfl h⟩
    · exact (List.append_eq_nil_iff.mpr ⟨rfl, hpipe⟩).symm
    · rw [hpipe]
      exact Nat.zero_le 1
    · exact absurd h (by simp only [State.init, Client.init, reduceCtorEq, not_false_eq_true])
    · exact absurd h (by simp only [State.init, reduceCtorEq, not_false_eq_true])
    · exact absurd h.2 (by simp only [State.init, ServerPc.holds, Bool.false_eq_true,
        not_false_eq_true])
  · exact absurd h (by simp only [State.init, reduceCtorEq, not_false_eq_true])
  · exact absurd h (by simp only [State.init, reduceCtorEq, not_false_eq_true])

/-- The invariant of client `c` reads nothing of the other clients, and no response. -/
theorem viewOk_congr {s t : State σ} {c : Nat} (hpc : (t.client c).pc = (s.client c).pc)
    (hreq : (t.client c).reqArea = (s.client c).reqArea)
    (hst : (t.client c).started = (s.client c).started)
    (hrec : t.serverReqArea c = s.serverReqArea c) (hun : t.unread c = s.unread c)
    (hlog : handledOf t c = handledOf s c) (hhand : inHand t c = inHand s c)
    (hheld : held t c ↔ held s c) (h : ViewOk s c) : ViewOk t c := by
  have hpipe : pipeline t c = pipeline s c := by
    rw [pipeline, pipeline, hhand, hun, unwritten, unwritten, hpc, hreq]
  refine ⟨?_, ?_, ?_, ?_, ?_, ?_⟩
  · rw [hst, hlog, hpipe]
    exact h.conserved
  · rw [hpipe]
    exact h.single
  · rw [hpc, hreq]
    exact h.writing
  · rw [hun, hrec]
    exact h.unread_record
  · rw [hheld, hrec, hun]
    exact h.held_key
  · rw [hrec, hun, hheld]
    exact h.owner

/-- A record that reads 0 has no request, and none of it is with the server. -/
theorem free_record {s : State σ} {c : Nat} (h : ViewOk s c) (hkey : (s.serverReqArea c).key = 0) :
    s.unread c = none ∧ ¬ held s c := by
  constructor
  · cases hun : s.unread c with
    | none => rfl
    | some r =>
        rcases h.unread_record r hun with ⟨hrec, hr, _⟩
        rw [hrec] at hkey
        exact absurd hkey hr
  · exact fun hheld => (h.held_key hheld).1 hkey

theorem inHand_eq_nil {s : State σ} {c : Nat} (h : ¬ held s c) : inHand s c = [] := by
  rw [inHand]
  split
  · rename_i hslot
    have hholds : s.pc.holds = false := by
      rw [← Bool.not_eq_true]
      exact fun hh => h ⟨hslot, hh⟩
    rw [hand_eq_none hholds]
    rfl
  · rfl

theorem inHand_slot {s : State σ} {c : Nat} (h : s.slot = c) : inHand s c = s.pc.hand.toList :=
  if_pos h

/-- Nothing of a client is on its way when its record is free, or is being freed, and
    it is not writing. -/
theorem pipeline_eq_nil {s : State σ} {c : Nat} (h : ViewOk s c) (hpc : (s.client c).pc ≠ .write)
    (hfree : (s.serverReqArea c).key = 0 ∨ freeing s c) : pipeline s c = [] := by
  have hrest : inHand s c = [] ∧ s.unread c = none := by
    rcases hfree with hkey | ⟨hslot, hholds, hhand⟩
    · obtain ⟨hun, hheld⟩ := free_record h hkey
      exact ⟨inHand_eq_nil hheld, hun⟩
    · refine ⟨?_, (h.held_key ⟨hslot, hholds⟩).2⟩
      rw [inHand, hhand]
      exact ite_self _
  rw [pipeline, hrest.1, hrest.2, unwritten, if_neg hpc]
  rfl

@[simp]
theorem setClient_self (s : State σ) (c : Nat) (cl : Client) :
    (s.setClient c cl).client c = cl := by
  simp only [State.setClient, Function.update_self]

theorem setClient_other (s : State σ) (c c' : Nat) (cl : Client) (h : c' ≠ c) :
    (s.setClient c cl).client c' = s.client c' := by
  simp only [State.setClient, Function.update_of_ne h]

theorem setRecord_other (s : State σ) (c c' : Nat) (r : Record) (u : Option Record)
    (h : c' ≠ c) : (s.setRecord c r u).serverReqArea c' = s.serverReqArea c' ∧
      (s.setRecord c r u).unread c' = s.unread c' := by
  simp only [State.setRecord, Function.update_of_ne h, and_self]

theorem setRecord_self (s : State σ) (c : Nat) (r : Record) (u : Option Record) :
    (s.setRecord c r u).serverReqArea c = r ∧ (s.setRecord c r u).unread c = u := by
  simp only [State.setRecord, Function.update_self, and_self]

/-! ## The client's side -/

theorem clientStep_cases (s t : State σ) (c : Nat) (h : clientStep s c = some t) :
    (∃ (a : Ask) (as : List Ask), (s.client c).pc = .start ∧ (s.client c).todo = a :: as ∧
      t = s.setClient c { s.client c with
        pc := .write, todo := as, reqArea := a.record,
        started := (s.client c).started ++ [a.record] }) ∨
    ((s.client c).pc = .write ∧ t = (s.setRecord c (s.client c).reqArea
      (some (s.client c).reqArea)).setClient c { s.client c with pc := .reset }) ∨
    (∃ pc r, (s.client c).pc ≠ .write ∧ pc ≠ .write ∧
      t = s.setClient c { s.client c with pc := pc, resp := r }) := by
  unfold clientStep at h
  cases hpc : (s.client c).pc with
  | start =>
      cases htodo : (s.client c).todo with
      | nil =>
          simp only [hpc, htodo] at h
          exact absurd h (by simp only [reduceCtorEq, not_false_eq_true])
      | cons a as =>
          simp only [hpc, htodo, Option.some.injEq] at h
          exact Or.inl ⟨a, as, rfl, rfl, h.symm⟩
  | write =>
      simp only [hpc, Option.some.injEq] at h
      exact Or.inr (Or.inl ⟨rfl, h.symm⟩)
  | reset =>
      simp only [hpc, Option.some.injEq] at h
      exact Or.inr (Or.inr ⟨.wait, 0, by simp only [ne_eq, reduceCtorEq, not_false_eq_true],
        by simp only [ne_eq, reduceCtorEq, not_false_eq_true], h.symm⟩)
  | wait =>
      simp only [hpc, if_neg (s.client c).respArea.property, Option.some.injEq] at h
      exact Or.inr (Or.inr ⟨.start, (s.client c).resp,
        by simp only [ne_eq, reduceCtorEq, not_false_eq_true],
        by simp only [ne_eq, reduceCtorEq, not_false_eq_true], h.symm⟩)

/-- An access of one client leaves the others' queues and what the server knows. -/
theorem queueOk_client {s t : State σ} {c : Nat} (h : QueueOk s) (hi : t.i = s.i)
    (hpc : t.pc = s.pc) (hlog : t.log = s.log) (hkept : t.overwritten = false)
    (hclient : ∀ c', c' ≠ c → t.client c' = s.client c')
    (hrec : ∀ c', c' ≠ c ∨ (s.serverReqArea c').key ≠ 0 →
      t.serverReqArea c' = s.serverReqArea c' ∧ t.unread c' = s.unread c')
    (hview : ViewOk t c) : QueueOk t := by
  have hslot : t.slot = s.slot := by rw [State.slot, hi, State.slot]
  -- The record the server looks at is taken, so the client has not written it.
  have hlook : s.pc ≠ .scan → t.serverReqArea t.slot = s.serverReqArea s.slot := by
    intro hscan
    rw [hslot]
    exact (hrec s.slot (Or.inr (h.looking hscan))).1
  refine ⟨fun c' => ?_, fun hscan => ?_, fun hput => ?_, fun hget => ?_, hkept⟩
  · by_cases hc : c' = c
    · rw [hc]
      exact hview
    · refine viewOk_congr ?_ ?_ ?_ (hrec c' (Or.inl hc)).1 (hrec c' (Or.inl hc)).2 ?_ ?_ ?_
        (h.view c')
      · rw [hclient c' hc]
      · rw [hclient c' hc]
      · rw [hclient c' hc]
      · rw [handledOf, hlog, handledOf]
      · rw [inHand, hslot, hpc, inHand]
      · rw [held, hslot, hpc, held]
  · rw [hpc] at hscan
    rw [hlook hscan]
    exact h.looking hscan
  · rw [hpc] at hput
    rw [hlook (by rw [hput]; simp only [ne_eq, reduceCtorEq, not_false_eq_true])]
    exact h.put hput
  · rw [hpc] at hget
    rw [hlook (by rw [hget]; simp only [ne_eq, reduceCtorEq, not_false_eq_true])]
    exact h.get hget

/-- A client that waits keeps the queues. -/
theorem queueOk_clientStep (s t : State σ) (c : Nat) (h : QueueOk s)
    (hok : recordFree s (.client c)) (hstep : clientStep s c = some t) : QueueOk t := by
  have hv := h.view c
  rcases clientStep_cases s t c hstep with ⟨a, as, hpc, _, rfl⟩ | ⟨hpc, rfl⟩ |
    ⟨pc, r, hpc, hpc', rfl⟩
  · -- It begins a request, with nothing of its own on the way.
    have hnil := pipeline_eq_nil hv (by rw [hpc]; simp only [ne_eq, reduceCtorEq,
      not_false_eq_true]) (hok.1 hpc)
    have hrest : inHand s c ++ (s.unread c).toList = [] := (List.append_eq_nil_iff.mp hnil).1
    refine queueOk_client h rfl rfl rfl h.kept (fun c' hc => setClient_other s c c' _ hc)
      (fun _ _ => ⟨rfl, rfl⟩) ?_
    have hpipe : pipeline (s.setClient c { s.client c with
        pc := .write, todo := as, reqArea := a.record,
        started := (s.client c).started ++ [a.record] }) c = [a.record] := by
      rw [pipeline, unwritten, setClient_self, if_pos rfl]
      exact congrArg (· ++ [a.record]) hrest
    refine ⟨?_, ?_, fun _ => ?_, hv.unread_record, hv.held_key, hv.owner⟩
    · rw [hpipe, setClient_self, hv.conserved, hnil, List.append_nil]
      rfl
    · rw [hpipe]
      exact Nat.le_refl 1
    · rw [setClient_self]
      exact a.record_valid
  · -- It writes its request, into a record that reads 0.
    have hkey := hok.2 hpc
    obtain ⟨hun, hheld⟩ := free_record hv hkey
    have hhand := inHand_eq_nil hheld
    have hunw : unwritten s c = [(s.client c).reqArea] := by rw [unwritten, if_pos hpc]
    refine queueOk_client (c := c) h rfl rfl rfl ?_ (fun c' hc => ?_) (fun c' hc => ?_) ?_
    · change (s.overwritten || (s.unread c).isSome) = false
      rw [h.kept, hun]
      rfl
    · exact setClient_other _ c c' _ hc
    · have hne : c' ≠ c := hc.elim id fun hne he => hne (he ▸ hkey)
      exact setRecord_other s c c' _ _ hne
    · have hself := setRecord_self s c (s.client c).reqArea (some (s.client c).reqArea)
      have hpipe : pipeline ((s.setRecord c (s.client c).reqArea
          (some (s.client c).reqArea)).setClient c { s.client c with pc := .reset }) c =
          [(s.client c).reqArea] := by
        rw [pipeline, unwritten, setClient_self]
        change inHand s c ++ ((s.setRecord c (s.client c).reqArea
          (some (s.client c).reqArea)).unread c).toList ++ _ = _
        rw [hhand, hself.2]
        rfl
      refine ⟨?_, ?_, fun hw => ?_, fun r hr => ?_, fun hh => absurd hh hheld, fun _ hnone => ?_⟩
      · rw [hpipe, setClient_self, hv.conserved, pipeline, hhand, hun, hunw]
        rfl
      · rw [hpipe]
        exact Nat.le_refl 1
      · rw [setClient_self] at hw
        exact absurd hw (by simp only [reduceCtorEq, not_false_eq_true])
      · have hr' := hself.2.symm.trans hr
        rw [Option.some.injEq] at hr'
        rw [← hr']
        exact ⟨hself.1, hv.writing hpc⟩
      · exact absurd (hself.2.symm.trans hnone) (by simp only [reduceCtorEq, not_false_eq_true])
  · -- It resets or tests the response.
    refine queueOk_client h rfl rfl rfl h.kept (fun c' hc => setClient_other s c c' _ hc)
      (fun _ _ => ⟨rfl, rfl⟩) ?_
    have hpipe : pipeline (s.setClient c { s.client c with pc := pc, resp := r }) c =
        pipeline s c := by
      rw [pipeline, pipeline, unwritten, unwritten, setClient_self, if_neg hpc, if_neg hpc']
      rfl
    refine ⟨?_, ?_, fun hw => ?_, hv.unread_record, hv.held_key, hv.owner⟩
    · rw [hpipe, setClient_self]
      exact hv.conserved
    · rw [hpipe]
      exact hv.single
    · rw [setClient_self] at hw
      exact absurd hw hpc'

/-! ## The server's side -/

/-- What the server has in hand it also holds. -/
theorem holds_of_hand {pc : ServerPc} {r : Record} (h : pc.hand = some r) : pc.holds = true := by
  cases hh : pc.holds with
  | true => rfl
  | false =>
      rw [hand_eq_none hh] at h
      exact absurd h (by simp only [reduceCtorEq, not_false_eq_true])

/-- An access of the server looks at a record, reads its key, handles the request in
    hand, stores a key in the record or answers. -/
theorem serverStep_cases (n : Nat) (hd : Handler σ) (s t : State σ)
    (h : serverStep n hd s = some t) :
    (∃ i pc, s.pc.holds = false ∧ pc.holds = false ∧ t = { s with i := i, pc := pc } ∧
      (pc ≠ .scan → (s.serverReqArea i.toNat).key ≠ 0 ∨ i = s.i ∧ s.pc ≠ .scan) ∧
      (pc = .put → (s.serverReqArea i.toNat).req = 1) ∧
      (pc = .get → (s.serverReqArea i.toNat).req = 2)) ∨
    (∃ pc r, (s.pc = .put ∧ r = ⟨1, toInt32 (s.serverReqArea s.slot).key⟩ ∨
        s.pc = .get ∧ r = ⟨2, toInt32 (s.serverReqArea s.slot).key⟩) ∧ pc.hand = some r ∧
      t = { s with pc := pc, unread := Function.update s.unread s.slot none }) ∨
    (∃ r pc st, s.pc.hand = some r ∧ pc.hand = none ∧ pc.holds = true ∧
      hd.apply s.store r = some st ∧
      t = { s with pc := pc, store := st, log := s.log ++ [(s.slot, r)] }) ∨
    (∃ key pc, s.pc.holds = true ∧ pc.hand = s.pc.hand ∧
      (key = 1 ∧ pc.holds = true ∨ key = 0 ∧ pc = .scan) ∧
      t = { s.setKey key with pc := pc }) ∨
    (∃ r, s.pc = .answered ∧
      t = { s.setClient s.slot { s.client s.slot with resp := r } with pc := .acked }) := by
  unfold serverStep at h
  cases hpc : s.pc with
  | scan =>
      -- The next record, which has a request if its key is not 0.
      simp only [hpc, Option.some.injEq] at h
      by_cases hkey : (s.serverReqArea ((s.i + 1).tmod n).toNat).key = 0
      · rw [if_pos hkey] at h
        exact Or.inl ⟨_, .scan, rfl, rfl, h.symm, fun hne => absurd rfl hne,
          fun hput => absurd hput (by simp only [reduceCtorEq, not_false_eq_true]),
          fun hget => absurd hget (by simp only [reduceCtorEq, not_false_eq_true])⟩
      · rw [if_neg hkey] at h
        exact Or.inl ⟨_, .seen, rfl, rfl, h.symm, fun _ => Or.inl hkey,
          fun hput => absurd hput (by simp only [reduceCtorEq, not_false_eq_true]),
          fun hget => absurd hget (by simp only [reduceCtorEq, not_false_eq_true])⟩
  | seen =>
      -- The first test of the request's kind, for a PUT.
      have hne : ServerPc.seen ≠ .scan := by simp only [ne_eq, reduceCtorEq, not_false_eq_true]
      simp only [hpc, Option.some.injEq] at h
      by_cases hreq : (s.serverReqArea s.slot).req = 1
      · rw [if_pos hreq] at h
        exact Or.inl ⟨s.i, .put, rfl, rfl, h.symm, fun _ => Or.inr ⟨rfl, hne⟩, fun _ => hreq,
          fun hget => absurd hget (by simp only [reduceCtorEq, not_false_eq_true])⟩
      · rw [if_neg hreq] at h
        exact Or.inl ⟨s.i, .notPut, rfl, rfl, h.symm, fun _ => Or.inr ⟨rfl, hne⟩,
          fun hput => absurd hput (by simp only [reduceCtorEq, not_false_eq_true]),
          fun hget => absurd hget (by simp only [reduceCtorEq, not_false_eq_true])⟩
  | notPut =>
      -- The second, for a GET; the record may have changed in between.
      have hne : ServerPc.notPut ≠ .scan := by simp only [ne_eq, reduceCtorEq, not_false_eq_true]
      simp only [hpc, Option.some.injEq] at h
      by_cases hreq : (s.serverReqArea s.slot).req = 2
      · rw [if_pos hreq] at h
        exact Or.inl ⟨s.i, .get, rfl, rfl, h.symm, fun _ => Or.inr ⟨rfl, hne⟩,
          fun hput => absurd hput (by simp only [reduceCtorEq, not_false_eq_true]), fun _ => hreq⟩
      · rw [if_neg hreq] at h
        exact Or.inl ⟨s.i, .scan, rfl, rfl, h.symm, fun hne => absurd rfl hne,
          fun hput => absurd hput (by simp only [reduceCtorEq, not_false_eq_true]),
          fun hget => absurd hget (by simp only [reduceCtorEq, not_false_eq_true])⟩
  | put =>
      simp only [hpc, Option.some.injEq] at h
      exact Or.inr (Or.inl ⟨_, _, Or.inl ⟨rfl, rfl⟩, rfl, h.symm⟩)
  | get =>
      simp only [hpc, Option.some.injEq] at h
      exact Or.inr (Or.inl ⟨_, _, Or.inr ⟨rfl, rfl⟩, rfl, h.symm⟩)
  | putKey k =>
      -- A PUT is made before the acknowledgement is stored, a GET after.
      simp only [hpc] at h
      rcases Option.map_eq_some_iff.mp h with ⟨st, hst, ht⟩
      exact Or.inr (Or.inr (Or.inl ⟨⟨1, k⟩, .updated, st, rfl, rfl, rfl, hst, ht.symm⟩))
  | getKey k =>
      simp only [hpc, Option.some.injEq] at h
      exact Or.inr (Or.inr (Or.inr (Or.inl ⟨1, .getMarked k, rfl, rfl, Or.inl ⟨rfl, rfl⟩,
        h.symm⟩)))
  | getMarked k =>
      simp only [hpc] at h
      rcases Option.map_eq_some_iff.mp h with ⟨st, hst, ht⟩
      exact Or.inr (Or.inr (Or.inl ⟨⟨2, k⟩, .answered, st, rfl, rfl, rfl, hst, ht.symm⟩))
  | updated =>
      simp only [hpc, Option.some.injEq] at h
      exact Or.inr (Or.inr (Or.inr (Or.inl ⟨1, .answered, rfl, rfl, Or.inl ⟨rfl, rfl⟩,
        h.symm⟩)))
  | answered =>
      simp only [hpc, Option.some.injEq] at h
      exact Or.inr (Or.inr (Or.inr (Or.inr ⟨_, rfl, h.symm⟩)))
  | acked =>
      simp only [hpc, Option.some.injEq] at h
      exact Or.inr (Or.inr (Or.inr (Or.inl ⟨0, .scan, rfl, rfl, Or.inr ⟨rfl, rfl⟩, h.symm⟩)))

/-- The server's accesses at its record leave the other clients' queues. -/
theorem viewOk_other {s t : State σ} {c : Nat} (hslot : t.slot = s.slot) (hc : c ≠ s.slot)
    (hcl : t.client c = s.client c) (hrec : t.serverReqArea c = s.serverReqArea c)
    (hun : t.unread c = s.unread c) (hlog : handledOf t c = handledOf s c) (h : ViewOk s c) :
    ViewOk t c := by
  have hs : s.slot ≠ c := hc.symm
  have ht : t.slot ≠ c := by
    rw [hslot]
    exact hs
  refine viewOk_congr (by rw [hcl]) (by rw [hcl]) (by rw [hcl]) hrec hun hlog ?_ ?_ h
  · rw [inHand, inHand, if_neg hs, if_neg ht]
  · exact iff_of_false (fun hh => ht hh.1) (fun hh => hs hh.1)

/-- While the server looks at records it has none. -/
theorem viewOk_look {s : State σ} (i : Int) {pc : ServerPc} (hs : s.pc.holds = false)
    (hpc : pc.holds = false) (c : Nat) (h : ViewOk s c) :
    ViewOk { s with i := i, pc := pc } c := by
  have hheld : ¬ held s c := fun hh => absurd (hs.symm.trans hh.2) Bool.false_ne_true
  have hheld' : ¬ held { s with i := i, pc := pc } c :=
    fun hh => absurd (hpc.symm.trans hh.2) Bool.false_ne_true
  refine viewOk_congr (s := s) rfl rfl rfl rfl rfl rfl ?_ (iff_of_false hheld' hheld) h
  rw [inHand_eq_nil hheld, inHand_eq_nil hheld']

/-- A record that is seen taken while the server has none holds a request. -/
theorem unread_of_taken {s : State σ} {c : Nat} (h : ViewOk s c)
    (hkey : (s.serverReqArea c).key ≠ 0) (hheld : ¬ held s c) :
    s.unread c = some (s.serverReqArea c) := by
  cases hun : s.unread c with
  | none => exact absurd (h.owner hkey hun) hheld
  | some r => rw [(h.unread_record r hun).1]

/-- What the server takes in its hand is the request that was written. -/
theorem viewOk_take {s : State σ} {pc : ServerPc} (h : ViewOk s s.slot)
    (hs : s.pc.holds = false) (hkey : (s.serverReqArea s.slot).key ≠ 0)
    (hhand : pc.hand = some (s.serverReqArea s.slot)) :
    ViewOk { s with pc := pc, unread := Function.update s.unread s.slot none } s.slot := by
  have hheld : ¬ held s s.slot := fun hh => absurd (hs.symm.trans hh.2) Bool.false_ne_true
  have hun := unread_of_taken h hkey hheld
  have hnone : Function.update s.unread s.slot none s.slot = none := Function.update_self _ _ _
  have hpipe : pipeline { s with
      pc := pc, unread := Function.update s.unread s.slot none } s.slot =
      pipeline s s.slot := by
    have hin : inHand { s with
        pc := pc, unread := Function.update s.unread s.slot none } s.slot =
        pc.hand.toList := inHand_slot rfl
    rw [pipeline, pipeline, hin, hhand, inHand_eq_nil hheld, hun]
    simp only [hnone]
    rfl
  refine ⟨?_, ?_, h.writing, fun r hr => ?_, fun _ => ⟨hkey, hnone⟩, fun _ _ => ?_⟩
  · rw [hpipe]
    exact h.conserved
  · rw [hpipe]
    exact h.single
  · exact absurd (hnone.symm.trans hr) (by simp only [reduceCtorEq, not_false_eq_true])
  · exact ⟨rfl, holds_of_hand hhand⟩

/-- A request that is handled is the oldest of its client. -/
theorem viewOk_handle {s : State σ} {pc : ServerPc} {r : Record} (st : σ)
    (h : ViewOk s s.slot) (hs : s.pc.hand = some r) (hpc : pc.hand = none)
    (hholds : pc.holds = true) :
    ViewOk { s with pc := pc, store := st, log := s.log ++ [(s.slot, r)] } s.slot := by
  have hheld : held s s.slot := ⟨rfl, holds_of_hand hs⟩
  obtain ⟨hkey, hun⟩ := h.held_key hheld
  have hlog : handledOf { s with
      pc := pc, store := st, log := s.log ++ [(s.slot, r)] } s.slot =
      handledOf s s.slot ++ [r] := by
    simp only [handledOf, List.filter_append, List.map_append, decide_true,
      List.filter_cons_of_pos, List.filter_nil, List.map_cons, List.map_nil]
  have hpipe : pipeline s s.slot = r :: pipeline { s with
      pc := pc, store := st, log := s.log ++ [(s.slot, r)] } s.slot := by
    have hin : inHand { s with
        pc := pc, store := st, log := s.log ++ [(s.slot, r)] } s.slot = pc.hand.toList :=
      inHand_slot rfl
    rw [pipeline, pipeline, inHand_slot rfl, hin, hs, hpc]
    rfl
  -- The queue had only this request.
  have hnil : pipeline { s with
      pc := pc, store := st, log := s.log ++ [(s.slot, r)] } s.slot = [] := by
    have hone := h.single
    rw [hpipe, List.length_cons] at hone
    exact List.eq_nil_of_length_eq_zero (by omega)
  refine ⟨?_, ?_, h.writing, h.unread_record, fun _ => ⟨hkey, hun⟩, fun _ _ => ⟨rfl, hholds⟩⟩
  · rw [hlog, hnil, List.append_nil, h.conserved, hpipe, hnil]
  · rw [hnil]
    exact Nat.zero_le 1

/-- A store to a record that has been read moves no request. -/
theorem viewOk_store {s : State σ} {pc : ServerPc} {key : Int} (h : ViewOk s s.slot)
    (hs : s.pc.holds = true) (hhand : pc.hand = s.pc.hand)
    (hkey : key = 1 ∧ pc.holds = true ∨ key = 0 ∧ pc = .scan) :
    ViewOk { s.setKey key with pc := pc } s.slot := by
  have hun := (h.held_key ⟨rfl, hs⟩).2
  have hself := setRecord_self s s.slot { s.serverReqArea s.slot with key := key } none
  have hpipe : pipeline { s.setKey key with pc := pc } s.slot = pipeline s s.slot := by
    have hin : inHand { s.setKey key with pc := pc } s.slot = inHand s s.slot := by
      rw [inHand, inHand, hhand]
      rfl
    rw [pipeline, pipeline, hin, hun]
    exact congrArg (fun u => inHand s s.slot ++ u.toList ++ unwritten s s.slot) hself.2
  refine ⟨?_, ?_, h.writing, fun r hr => ?_, fun hh => ?_, fun hne _ => ?_⟩
  · rw [hpipe]
    exact h.conserved
  · rw [hpipe]
    exact h.single
  · exact absurd (hself.2.symm.trans hr) (by simp only [reduceCtorEq, not_false_eq_true])
  · rcases hkey with ⟨hone, _⟩ | ⟨_, hscan⟩
    · refine ⟨fun h0 => Int.one_ne_zero ?_, hself.2⟩
      exact hone.symm.trans ((congrArg Record.key hself.1).symm.trans h0)
    · have hholds := hh.2
      rw [hscan] at hholds
      exact absurd hholds Bool.false_ne_true
  · rcases hkey with ⟨_, hholds⟩ | ⟨h0, _⟩
    · exact ⟨rfl, hholds⟩
    · exact absurd ((congrArg Record.key hself.1).trans h0) hne

/-- A step of the server at its record keeps the queues if it keeps this record's. -/
theorem queueOk_server {s t : State σ} (h : QueueOk s) (hslot : t.slot = s.slot)
    (hholds : t.pc.holds = true ∨ t.pc = .scan)
    (hclient : ∀ c, c ≠ s.slot → t.client c = s.client c)
    (hrec : ∀ c, c ≠ s.slot → t.serverReqArea c = s.serverReqArea c)
    (hun : ∀ c, c ≠ s.slot → t.unread c = s.unread c)
    (hlog : ∀ c, c ≠ s.slot → handledOf t c = handledOf s c) (hkept : t.overwritten = false)
    (hview : ViewOk t s.slot) : QueueOk t := by
  refine ⟨fun c => ?_, fun hscan => ?_, fun hput => ?_, fun hget => ?_, hkept⟩
  · by_cases hc : c = s.slot
    · rw [hc]
      exact hview
    · exact viewOk_other hslot hc (hclient c hc) (hrec c hc) (hun c hc) (hlog c hc) (h.view c)
  · rcases hholds with hh | hh
    · rw [hslot]
      exact (hview.held_key ⟨hslot, hh⟩).1
    · exact absurd hh hscan
  · rw [hput] at hholds
    exact absurd hholds (by simp only [ServerPc.holds, Bool.false_eq_true, reduceCtorEq, or_self,
      not_false_eq_true])
  · rw [hget] at hholds
    exact absurd hholds (by simp only [ServerPc.holds, Bool.false_eq_true, reduceCtorEq, or_self,
      not_false_eq_true])

/-- The server's accesses keep the queues, whatever its clients do. -/
theorem queueOk_serverStep (n : Nat) (hd : Handler σ) (s t : State σ) (h : QueueOk s)
    (hstep : serverStep n hd s = some t) : QueueOk t := by
  have hv := h.view s.slot
  rcases serverStep_cases n hd s t hstep with ⟨i, pc, hs, hpc, rfl, hlook, hput, hget⟩ |
    ⟨pc, r, hr, hhand, rfl⟩ | ⟨r, pc, st, hs, hpc, hholds, _, rfl⟩ |
    ⟨key, pc, hs, hhand, hkey, rfl⟩ | ⟨r, hs, rfl⟩
  · refine ⟨fun c => viewOk_look i hs hpc c (h.view c), fun hscan => ?_, hput, hget, h.kept⟩
    rcases hlook hscan with hkey | ⟨hi, hlooking⟩
    · exact hkey
    · change (s.serverReqArea i.toNat).key ≠ 0
      rw [hi]
      exact h.looking hlooking
  · -- The record still has the kind that was tested, and its key fits.
    have hlooking : s.pc.holds = false ∧ s.pc ≠ .scan := by
      rcases hr with ⟨hput, _⟩ | ⟨hget, _⟩
      · rw [hput]
        exact ⟨rfl, by simp only [ne_eq, reduceCtorEq, not_false_eq_true]⟩
      · rw [hget]
        exact ⟨rfl, by simp only [ne_eq, reduceCtorEq, not_false_eq_true]⟩
    have hkey := h.looking hlooking.2
    have hheld : ¬ held s s.slot :=
      fun hh => absurd (hlooking.1.symm.trans hh.2) Bool.false_ne_true
    have hfits := (hv.unread_record _ (unread_of_taken hv hkey hheld)).2.2.1
    have hrec : r = s.serverReqArea s.slot := by
      rcases hr with ⟨hput, rfl⟩ | ⟨hget, rfl⟩
      · rw [toInt32_of_inInt32 _ hfits, ← h.put hput]
      · rw [toInt32_of_inInt32 _ hfits, ← h.get hget]
    rw [hrec] at hhand
    exact queueOk_server h rfl (Or.inl (holds_of_hand hhand)) (fun _ _ => rfl) (fun _ _ => rfl)
      (fun c hc => Function.update_of_ne hc none s.unread) (fun _ _ => rfl) h.kept
      (viewOk_take hv hlooking.1 hkey hhand)
  · refine queueOk_server h rfl (Or.inl hholds) (fun _ _ => rfl) (fun _ _ => rfl)
      (fun _ _ => rfl) (fun c hc => ?_) h.kept (viewOk_handle st hv hs hpc hholds)
    -- The entry in the log is of another record.
    have hlog : ¬ s.slot = c := fun he => hc he.symm
    simp only [handledOf, List.filter_append, hlog, decide_false, Bool.false_eq_true,
      not_false_eq_true, List.filter_cons_of_neg, List.filter_nil, List.append_nil]
  · have hother : ∀ c, c ≠ s.slot → (s.setKey key).serverReqArea c = s.serverReqArea c ∧
        (s.setKey key).unread c = s.unread c :=
      fun c hc => setRecord_other s s.slot c _ none hc
    refine queueOk_server h rfl (hkey.imp And.right And.right) (fun _ _ => rfl)
      (fun c hc => (hother c hc).1) (fun c hc => (hother c hc).2) (fun _ _ => rfl) ?_
      (viewOk_store hv hs hhand hkey)
    change (s.overwritten || (s.unread s.slot).isSome) = false
    rw [h.kept, (hv.held_key ⟨rfl, hs⟩).2]
    rfl
  · -- The answer changes the word in the client's response area alone.
    have hholds : s.pc.holds = true := by rw [hs]; rfl
    have hself := setClient_self s s.slot { s.client s.slot with resp := r }
    refine queueOk_server h rfl (Or.inl rfl) (fun c hc => setClient_other s s.slot c _ hc)
      (fun _ _ => rfl) (fun _ _ => rfl) (fun _ _ => rfl) h.kept ?_
    refine viewOk_congr (s := s) ?_ ?_ ?_ rfl rfl rfl ?_
      (iff_of_true ⟨rfl, rfl⟩ ⟨rfl, hholds⟩) hv
    · exact (congrArg Client.pc hself :)
    · exact (congrArg Client.reqArea hself :)
    · exact (congrArg Client.started hself :)
    · rw [inHand_slot rfl, hs]
      exact inHand_slot rfl

theorem queueOk_step (n : Nat) (hd : Handler σ) (s : State σ) (a : Action) (t : State σ)
    (h : QueueOk s) (hok : recordFree s a) (hstep : step n hd s a = some t) : QueueOk t := by
  cases a with
  | client c =>
      rw [step] at hstep
      split at hstep
      · exact queueOk_clientStep s t c h hok hstep
      · exact absurd hstep (by simp only [reduceCtorEq, not_false_eq_true])
  | server => exact queueOk_serverStep n hd s t h hstep

/-! ## Runs -/

/-- A request that was handled, by itself. -/
def Handler.replay (hd : Handler σ) (st : σ) (p : Nat × Record) : Option σ :=
  hd.apply st p.2

/-- The store is what the handled requests make of the first one, in their order. -/
def Serial (hd : Handler σ) (store : σ) (s : State σ) : Prop :=
  run hd.replay s.log store = some s.store

/-- Each client has begun a first part of its requests. -/
def Asked (todo : Nat → List Ask) (s : State σ) : Prop :=
  ∀ c, (s.client c).started ++ (s.client c).todo.map Ask.record = (todo c).map Ask.record

theorem serial_serverStep (n : Nat) (hd : Handler σ) (store : σ) (s t : State σ)
    (h : Serial hd store s) (hstep : serverStep n hd s = some t) : Serial hd store t := by
  rcases serverStep_cases n hd s t hstep with ⟨_, _, _, _, rfl, _⟩ | ⟨_, _, _, _, rfl⟩ |
    ⟨r, pc, st, _, _, _, happly, rfl⟩ | ⟨_, _, _, _, _, rfl⟩ | ⟨_, _, rfl⟩
  · exact h
  · exact h
  · have hone : run hd.replay [(s.slot, r)] s.store = some st := by
      rw [run_cons hd.replay (s.slot, r) [] s.store st happly]
      rfl
    exact (run_append hd.replay s.log [(s.slot, r)] store s.store h).trans hone
  · exact h
  · exact h

theorem serial_step (n : Nat) (hd : Handler σ) (store : σ) (s : State σ) (a : Action)
    (t : State σ) (h : Serial hd store s) (hstep : step n hd s a = some t) :
    Serial hd store t := by
  cases a with
  | client c =>
      rw [step] at hstep
      split at hstep
      · rcases clientStep_cases s t c hstep with ⟨_, _, _, _, rfl⟩ | ⟨_, rfl⟩ | ⟨_, _, _, _, rfl⟩
        · exact h
        · exact h
        · exact h
      · exact absurd hstep (by simp only [reduceCtorEq, not_false_eq_true])
  | server => exact serial_serverStep n hd store s t h hstep

/-- The requests of a client whose list and number of begun ones stay. -/
theorem asked_setClient {todo : Nat → List Ask} {s : State σ} {c : Nat} {cl : Client}
    (h : Asked todo s) (hcl : cl.started ++ cl.todo.map Ask.record =
      (s.client c).started ++ (s.client c).todo.map Ask.record) :
    Asked todo (s.setClient c cl) := by
  intro c'
  by_cases hc : c' = c
  · rw [hc, setClient_self, hcl]
    exact h c
  · rw [setClient_other s c c' cl hc]
    exact h c'

theorem asked_step (n : Nat) (hd : Handler σ) (todo : Nat → List Ask) (s : State σ) (a : Action)
    (t : State σ) (h : Asked todo s) (hstep : step n hd s a = some t) : Asked todo t := by
  cases a with
  | client c =>
      rw [step] at hstep
      split at hstep
      · rcases clientStep_cases s t c hstep with ⟨a, as, _, htodo, rfl⟩ | ⟨_, rfl⟩ |
          ⟨_, _, _, _, rfl⟩
        · refine asked_setClient h ?_
          rw [htodo, List.map_cons, List.append_assoc]
          rfl
        · exact asked_setClient (s := s.setRecord c _ _) h rfl
        · exact asked_setClient h rfl
      · exact absurd hstep (by simp only [reduceCtorEq, not_false_eq_true])
  | server =>
      rcases serverStep_cases n hd s t hstep with ⟨_, _, _, _, rfl, _⟩ | ⟨_, _, _, _, rfl⟩ |
        ⟨_, _, _, _, _, _, _, rfl⟩ | ⟨_, _, _, _, _, rfl⟩ | ⟨_, _, rfl⟩
      · exact h
      · exact h
      · exact h
      · exact h
      · exact asked_setClient (s := s) h rfl

/-- The HydraDB server: an update writes 20 bytes of `item`, and the result of a
    search is not used. -/
def hydraHandler (item : Nat → Byte) : Handler HashTable where
  put := fun h k => (updateHashKey h k item 20).map Prod.fst
  get := fun h k => (hashtableSearch h k).map fun _ => h

/-- Ten items, and each bucket's slots point to the item with its number as key. -/
def tenItems : HashTable where
  slot := fun p => { size := 20, addr := some p.1, busy := 1, lease := 1 }
  buckets := fun a => { key := a, flag := 0, p := fun _ => 0 }
  poolSize := 20
  index := 10

/-- Client 0 has a GET and a PUT of its keys to make and client 1 a GET. -/
def twoAskers : Nat → List Ask
  | 0 => [⟨false, 4, by decide, by decide⟩, ⟨true, 8, by decide, by decide⟩]
  | 1 => [⟨false, 8, by decide, by decide⟩]
  | _ => []

/-- Some address for each response area. -/
def someRespArea : Nat → { a : Nat // a ≠ 0 } :=
  fun c => ⟨c + 1, Nat.succ_ne_zero c⟩

/-- Client 0 begins its PUT when the server has answered its GET. -/
def waitingRun : List Action :=
  [.client 0, .client 0, .client 0, .client 0, .server, .server, .server, .server, .server,
    .server, .client 0, .client 1, .client 1, .server, .server, .client 0, .server, .server,
    .server, .server, .server, .server, .server, .server, .server, .server, .server, .server,
    .server, .server]

/-- Client 0 goes on to its PUT while the server is between the kind of its GET and the
    key. The server searches for the key of the PUT, and no PUT is made. -/
example : (run (step 2 (hydraHandler fun _ => 65))
    [.client 0, .client 0, .client 0, .client 0, .server, .server, .server, .client 0,
      .client 0, .server, .server, .server, .server, .server]
    (State.init someRespArea twoAskers tenItems)).map
      (fun t => (handledOf t 0, (t.client 0).started, t.overwritten)) =
    some ([⟨2, 8⟩], [⟨2, 4⟩, ⟨1, 8⟩], true) := by decide +kernel

/-- By itself a request is served as `serveRequest` does. -/
theorem hydraHandler_apply (item : Nat → Byte) (h : HashTable) (r : Record) (hr : r.Valid)
    (val : Fin 32 → Byte) : (hydraHandler item).apply h r =
      serveRequest item h { req := r.req, key := r.key, val := val } := by
  have hk : toInt32 r.key = r.key := toInt32_of_inInt32 _ hr.2.1
  unfold serveRequest applyRequest
  simp only [if_pos hr.1, hk]
  rcases hr.2.2 with h1 | h2
  · rw [Handler.apply, if_pos h1, if_pos h1]
    rfl
  · have h1 : r.req ≠ 1 := by omega
    rw [Handler.apply, if_neg h1, if_neg h1, if_pos h2]
    rfl

end Protocol

end HydraDB

end LocalKeyValue
