import LocalKeyValue.FaRM.Hopscotch
import LocalKeyValue.Lib.CInt
import LocalKeyValue.Lib.Run

/-!
# The PUT Protocol

How a PUT travels from a client to the server. Each client owns one record of
the server's request area and writes its request there by RDMA; the server goes
round the records, and where it finds a non-zero key it reads it, updates its
store, puts 1 in the record, writes an acknowledgement into the client's
response area and puts 0 back. A state holds both sides and every action moves
one of them by one memory access, so a list of actions is an interleaving.

The client does not wait. Its loop `while (!client_resp_area){}` tests the
address of the response area, which is not null, where the word stored there is
meant; so it goes on to its next request at once, and writes it over the last
one if the server has not come round. Were the word tested the record could
still be lost, to the 0 the server stores after the acknowledgement is out.

What the protocol needs is `slotFree`: a client starts a request when the server
is done with its last one, and writes it into a record that reads 0. Along runs
that keep to it the requests of a client form a queue: those it has started are
those applied, then the one in the server's hand, the one in the record and the
one not yet written, of which there is at most one. `ViewOk` is that invariant.

The store and its update are parameters, so that both servers that use the
protocol can be put in.

## Main definitions

* `Client`, `State`: The two sides, with what has happened so far.
* `clientStep`, `serverStep`, `step`: One memory access of a side.
* `Safe`: No request has been lost or overwritten.
* `slotFree`: What a client has to wait for.
* `pipeline`: The requests of a client that are under way.
* `ViewOk`: The requests of a client form a queue of at most one.

## Theorems

* `queueOk_clientStep`, `queueOk_serverStep`: Each side keeps the queues.
* `put_run_safe`: A run whose clients wait is safe.
* `farm_put_overwritten`: A client that does not wait loses a request.
* `farm_put_run_safe`: FaRM's runs are safe where its clients wait.
-/

namespace LocalKeyValue

namespace FaRM

open CInt Run

/-- A key a client may PUT: an `int32_t` of its key file, and not the 0 that
    marks a free record. -/
structure PutKey where
  val : Int
  ne_zero : val ≠ 0
  inInt32 : InInt32 val

/-- Where a client is in its PUT branch. -/
inductive ClientPc
  | start
  | write
  | reset
  | wait
deriving DecidableEq

/-- A client: the PUTs still to do, its request record's key, the address of
    its response area and the word there. `started` are the keys of the PUTs it
    has begun. -/
structure Client where
  pc : ClientPc
  todo : List PutKey
  reqKey : Int
  respArea : { a : Nat // a ≠ 0 }
  resp : Int
  started : List Int

/-- Where the server is in its loop, with the key it has read. -/
inductive ServerPc
  | scan
  | seen
  | got (k : Int)
  | applied
  | answered
  | acked
deriving DecidableEq

/-- Both sides. `log` are the updates made, with the record they came from;
    `unread c` is the request in record `c` whose key the server has not read;
    `overwritten` says that a store has hit such a request. -/
structure State (σ : Type*) where
  client : Nat → Client
  serverReqArea : Nat → Int
  i : Int
  pc : ServerPc
  store : σ
  log : List (Nat × Int)
  unread : Nat → Option Int
  overwritten : Bool

/-- The party that moves. -/
inductive Action
  | client (c : Nat)
  | server
deriving DecidableEq

variable {σ : Type*}

/-- The record the server is at. -/
def State.slot (s : State σ) : Nat :=
  s.i.toNat

def State.setClient (s : State σ) (c : Nat) (cl : Client) : State σ :=
  { s with client := Function.update s.client c cl }

/-- A store to record `c`. A request that lies there unread is gone. -/
def State.setKey (s : State σ) (c : Nat) (key : Int) (unread : Option Int) : State σ :=
  { s with
    serverReqArea := Function.update s.serverReqArea c key
    unread := Function.update s.unread c unread
    overwritten := s.overwritten || (s.unread c).isSome }

/-- One access of client `c`: fill the request record, write it to the server,
    reset the response word, test for the answer. The last tests the address. -/
def clientStep (s : State σ) (c : Nat) : Option (State σ) :=
  let cl := s.client c
  match cl.pc with
  | .start =>
    match cl.todo with
    | [] => none
    | k :: ks => some (s.setClient c { cl with
        pc := .write, todo := ks, reqKey := k.val, started := cl.started ++ [k.val] })
  | .write => some ((s.setKey c cl.reqKey (some cl.reqKey)).setClient c { cl with pc := .reset })
  | .reset => some (s.setClient c { cl with pc := .wait, resp := 0 })
  | .wait => if cl.respArea.val = 0 then some s else some (s.setClient c { cl with pc := .start })

/-- One access of the server that serves `n` clients. The acknowledgement is the
    record at the start of the request area, whoever it is for. -/
def serverStep (n : Nat) (apply : σ → Int → Option σ) (s : State σ) : Option (State σ) :=
  match s.pc with
  | .scan =>
    let i := (s.i + 1).tmod n
    some { s with i := i, pc := if s.serverReqArea i.toNat = 0 then .scan else .seen }
  | .seen => some { s with
      pc := .got (toInt32 (s.serverReqArea s.slot))
      unread := Function.update s.unread s.slot none }
  | .got k =>
    match apply s.store k with
    | none => none
    | some st => some { s with pc := .applied, store := st, log := s.log ++ [(s.slot, k)] }
  | .applied => some { s.setKey s.slot 1 none with pc := .answered }
  | .answered =>
    let cl := s.client s.slot
    some { s.setClient s.slot { cl with resp := toInt32 (s.serverReqArea 0) } with pc := .acked }
  | .acked => some { s.setKey s.slot 0 none with pc := .scan }

def step (n : Nat) (apply : σ → Int → Option σ) (s : State σ) : Action → Option (State σ)
  | .client c => if c < n then clientStep s c else none
  | .server => serverStep n apply s

/-- A client before its first request. -/
def Client.init (respArea : { a : Nat // a ≠ 0 }) (todo : List PutKey) : Client where
  pc := .start
  todo := todo
  reqKey := 0
  respArea := respArea
  resp := 0
  started := []

/-- The buffers are zero and the server has not looked at a record. -/
def State.init (respArea : Nat → { a : Nat // a ≠ 0 }) (todo : Nat → List PutKey) (store : σ) :
    State σ where
  client := fun c => Client.init (respArea c) (todo c)
  serverReqArea := fun _ => 0
  i := -1
  pc := .scan
  store := store
  log := []
  unread := fun _ => none
  overwritten := false

/-- The keys of client `c` the server has applied, in order. -/
def appliedOf (s : State σ) (c : Nat) : List Int :=
  (s.log.filter fun p => p.1 = c).map Prod.snd

/-- No PUT is lost: of each client the server has applied, in order and once
    each, the PUTs it has moved past, and none but those it has started; and no
    request was overwritten before it was read. -/
def Safe (s : State σ) : Prop :=
  (∀ c, (s.client c).started.dropLast <+: appliedOf s c ∧ appliedOf s c <+: (s.client c).started) ∧
    s.overwritten = false

/-! ## Waiting -/

/-- The server has applied client `c`'s request and not freed its record. -/
def freeing (s : State σ) (c : Nat) : Prop :=
  s.slot = c ∧ (s.pc = .applied ∨ s.pc = .answered ∨ s.pc = .acked)

instance (s : State σ) (c : Nat) : Decidable (freeing s c) :=
  inferInstanceAs (Decidable (_ ∧ _))

/-- A client begins a PUT when the server is done with its last one, and writes
    it into a record that reads 0. -/
def slotFree (s : State σ) : Action → Prop
  | .client c => ((s.client c).pc = .start → s.serverReqArea c = 0 ∨ freeing s c) ∧
      ((s.client c).pc = .write → s.serverReqArea c = 0)
  | .server => True

instance (s : State σ) (a : Action) : Decidable (slotFree s a) :=
  match a with
  | .client c => inferInstanceAs (Decidable
      (((s.client c).pc = .start → s.serverReqArea c = 0 ∨ freeing s c) ∧
        ((s.client c).pc = .write → s.serverReqArea c = 0)))
  | .server => isTrue trivial

/-! ## The queue of a client -/

/-- The key of client `c` the server has read and not applied. -/
def inHand (s : State σ) (c : Nat) : List Int :=
  match s.pc with
  | .got k => if s.slot = c then [k] else []
  | _ => []

/-- The key client `c` has in its request record and not written. -/
def unwritten (s : State σ) (c : Nat) : List Int :=
  match (s.client c).pc with
  | .write => [(s.client c).reqKey]
  | _ => []

/-- The keys of client `c` under way, the oldest first. -/
def pipeline (s : State σ) (c : Nat) : List Int :=
  inHand s c ++ (s.unread c).toList ++ unwritten s c

/-- The requests of client `c` form a queue of at most one, and its record reads
    0 where none of them is in it or in the server's hand. -/
structure ViewOk (s : State σ) (c : Nat) : Prop where
  conserved : (s.client c).started = appliedOf s c ++ pipeline s c
  single : (pipeline s c).length ≤ 1
  writing : (s.client c).pc = .write →
    (s.client c).reqKey ≠ 0 ∧ InInt32 (s.client c).reqKey
  unread_key : ∀ v, s.unread c = some v → s.serverReqArea c = v ∧ v ≠ 0 ∧ InInt32 v
  hand_key : inHand s c ≠ [] → s.serverReqArea c ≠ 0
  freeing_key : freeing s c → s.serverReqArea c ≠ 0 ∧ s.unread c = none
  key_owner : s.serverReqArea c ≠ 0 → s.unread c = none → inHand s c ≠ [] ∨ freeing s c

/-- Every client's requests, and a record seen to be non-zero stays so. -/
structure QueueOk (s : State σ) : Prop where
  view : ∀ c, ViewOk s c
  seen : s.pc = .seen → s.serverReqArea s.slot ≠ 0
  kept : s.overwritten = false

theorem safe_of_queueOk (s : State σ) (h : QueueOk s) : Safe s := by
  refine ⟨fun c => ?_, h.kept⟩
  have hv := h.view c
  refine ⟨?_, by rw [hv.conserved]; exact List.prefix_append _ _⟩
  rw [hv.conserved]
  -- Dropping the last of a queue of at most one drops no applied request.
  have hone := hv.single
  cases hp : pipeline s c with
  | nil => rw [List.append_nil]; exact List.dropLast_prefix _
  | cons k ks =>
      rw [hp, List.length_cons] at hone
      have hks : ks = [] := List.eq_nil_of_length_eq_zero (by omega)
      have hdrop : (appliedOf s c ++ [k]).dropLast = appliedOf s c := List.dropLast_concat
      exact ⟨[], by rw [hks, hdrop, List.append_nil]⟩

theorem queueOk_init (respArea : Nat → { a : Nat // a ≠ 0 }) (todo : Nat → List PutKey)
    (store : σ) : QueueOk (State.init respArea todo store) := by
  refine ⟨fun c => ?_, fun h => ?_, rfl⟩
  · exact {
      conserved := rfl
      single := Nat.zero_le 1
      writing := fun h => absurd h (by simp only [State.init, Client.init, reduceCtorEq,
        not_false_eq_true])
      unread_key := fun v h => absurd h (by simp only [State.init, reduceCtorEq,
        not_false_eq_true])
      hand_key := fun h => absurd rfl h
      freeing_key := fun h => absurd h.2 (by simp only [State.init, reduceCtorEq, or_self,
        not_false_eq_true])
      key_owner := fun h => absurd rfl h }
  · exact absurd h (by simp only [State.init, reduceCtorEq, not_false_eq_true])

/-- The invariant of client `c` reads nothing of the other clients. -/
theorem viewOk_congr (s t : State σ) (c : Nat) (hcl : t.client c = s.client c)
    (hkey : t.serverReqArea c = s.serverReqArea c) (hun : t.unread c = s.unread c)
    (happ : appliedOf t c = appliedOf s c) (hhand : inHand t c = inHand s c)
    (hfree : freeing t c ↔ freeing s c) (h : ViewOk s c) : ViewOk t c := by
  have hunw : unwritten t c = unwritten s c := by simp only [unwritten, hcl]
  have hpipe : pipeline t c = pipeline s c := by simp only [pipeline, hhand, hun, hunw]
  exact {
    conserved := by rw [hcl, happ, hpipe]; exact h.conserved
    single := by rw [hpipe]; exact h.single
    writing := by rw [hcl]; exact h.writing
    unread_key := by rw [hun, hkey]; exact h.unread_key
    hand_key := by rw [hhand, hkey]; exact h.hand_key
    freeing_key := by rw [hfree, hkey, hun]; exact h.freeing_key
    key_owner := by rw [hkey, hun, hhand, hfree]; exact h.key_owner }

theorem inHand_eq_nil (s : State σ) (c : Nat) (h : ∀ k, s.pc ≠ .got k) : inHand s c = [] := by
  unfold inHand
  split
  · rename_i k hk
    exact absurd hk (h k)
  · rfl

theorem inHand_other (s : State σ) (c : Nat) (h : s.slot ≠ c) : inHand s c = [] := by
  unfold inHand
  split
  · rw [if_neg h]
  · rfl

theorem inHand_got (s : State σ) (k : Int) (h : s.pc = .got k) : inHand s s.slot = [k] := by
  rw [inHand, h]
  exact if_pos rfl

theorem not_freeing_other (s : State σ) (c : Nat) (h : s.slot ≠ c) : ¬ freeing s c :=
  fun hf => h hf.1

theorem not_freeing_of_pc (s : State σ) (c : Nat)
    (h : s.pc ≠ .applied ∧ s.pc ≠ .answered ∧ s.pc ≠ .acked) : ¬ freeing s c := by
  intro hf
  rcases hf.2 with hp | hp | hp
  · exact h.1 hp
  · exact h.2.1 hp
  · exact h.2.2 hp

/-! ## The client's side -/

theorem unwritten_eq_nil (s : State σ) (c : Nat) (h : (s.client c).pc ≠ .write) :
    unwritten s c = [] := by
  unfold unwritten
  split
  · rename_i hw
    exact absurd hw h
  · rfl

/-- Nothing of a client is under way when its record is free and it is not
    writing. -/
theorem pipeline_eq_nil (s : State σ) (c : Nat) (h : ViewOk s c)
    (hpc : (s.client c).pc ≠ .write) (hfree : s.serverReqArea c = 0 ∨ freeing s c) :
    pipeline s c = [] := by
  have hunw := unwritten_eq_nil s c hpc
  rcases hfree with h0 | hf
  · -- A record that reads 0 has no request, and none of it is in the server's hand.
    have hhand : inHand s c = [] := by
      by_contra hne
      exact h.hand_key hne h0
    have hun : s.unread c = none := by
      cases hu : s.unread c with
      | none => rfl
      | some v =>
          rcases h.unread_key v hu with ⟨hv, hv0, _⟩
          exact absurd (hv.symm.trans h0) hv0
    rw [pipeline, hhand, hun, hunw]
    rfl
  · -- A record that is being freed has been read and applied.
    have hhand : inHand s c = [] := by
      refine inHand_eq_nil s c fun k hk => ?_
      rcases hf with ⟨_, hp | hp | hp⟩ <;>
        exact absurd (hk.symm.trans hp) (by simp only [reduceCtorEq, not_false_eq_true])
    rw [pipeline, hhand, (h.freeing_key hf).2, hunw]
    rfl

/-- What an access of a client does. -/
theorem clientStep_cases (s t : State σ) (c : Nat) (h : clientStep s c = some t) :
    (∃ (k : PutKey) (ks : List PutKey), (s.client c).pc = .start ∧
      t = s.setClient c { s.client c with
        pc := .write, todo := ks, reqKey := k.val,
        started := (s.client c).started ++ [k.val] }) ∨
    ((s.client c).pc = .write ∧ t = (s.setKey c (s.client c).reqKey
      (some (s.client c).reqKey)).setClient c { s.client c with pc := .reset }) ∨
    (∃ pc r, ((s.client c).pc = .reset ∨ (s.client c).pc = .wait) ∧ pc ≠ .write ∧
      t = s.setClient c { s.client c with pc := pc, resp := r }) := by
  unfold clientStep at h
  cases hpc : (s.client c).pc with
  | start =>
      cases htodo : (s.client c).todo with
      | nil =>
          simp only [hpc, htodo] at h
          exact absurd h (by simp only [reduceCtorEq, not_false_eq_true])
      | cons k ks =>
          simp only [hpc, htodo, Option.some.injEq] at h
          exact Or.inl ⟨k, ks, rfl, h.symm⟩
  | write =>
      simp only [hpc, Option.some.injEq] at h
      exact Or.inr (Or.inl ⟨rfl, h.symm⟩)
  | reset =>
      simp only [hpc, Option.some.injEq] at h
      exact Or.inr (Or.inr ⟨.wait, 0, Or.inl rfl, by
        simp only [ne_eq, reduceCtorEq, not_false_eq_true], h.symm⟩)
  | wait =>
      -- The address is not null, so the loop ends at its first test.
      simp only [hpc, if_neg (s.client c).respArea.property, Option.some.injEq] at h
      exact Or.inr (Or.inr ⟨.start, (s.client c).resp, Or.inr rfl, by
        simp only [ne_eq, reduceCtorEq, not_false_eq_true], h.symm⟩)

@[simp]
theorem setClient_self (s : State σ) (c : Nat) (cl : Client) :
    (s.setClient c cl).client c = cl := by
  simp only [State.setClient, Function.update_self]

theorem setClient_other (s : State σ) (c c' : Nat) (cl : Client) (h : c' ≠ c) :
    (s.setClient c cl).client c' = s.client c' := by
  simp only [State.setClient, Function.update_of_ne h]

@[simp]
theorem setClient_serverReqArea (s : State σ) (c : Nat) (cl : Client) :
    (s.setClient c cl).serverReqArea = s.serverReqArea := rfl

@[simp]
theorem setClient_unread (s : State σ) (c : Nat) (cl : Client) :
    (s.setClient c cl).unread = s.unread := rfl

@[simp]
theorem setKey_self (s : State σ) (c : Nat) (key : Int) (u : Option Int) :
    (s.setKey c key u).serverReqArea c = key := by
  simp only [State.setKey, Function.update_self]

@[simp]
theorem setKey_unread_self (s : State σ) (c : Nat) (key : Int) (u : Option Int) :
    (s.setKey c key u).unread c = u := by
  simp only [State.setKey, Function.update_self]

theorem setKey_other (s : State σ) (c c' : Nat) (key : Int) (u : Option Int) (h : c' ≠ c) :
    (s.setKey c key u).serverReqArea c' = s.serverReqArea c' := by
  simp only [State.setKey, Function.update_of_ne h]

theorem setKey_unread_other (s : State σ) (c c' : Nat) (key : Int) (u : Option Int)
    (h : c' ≠ c) : (s.setKey c key u).unread c' = s.unread c' := by
  simp only [State.setKey, Function.update_of_ne h]

/-- A client that has begun a PUT has that alone under way. -/
theorem viewOk_start (s : State σ) (c : Nat) (cl : Client) (k : PutKey) (h : ViewOk s c)
    (hpipe : pipeline s c = []) (hpc : cl.pc = .write) (hkey : cl.reqKey = k.val)
    (hst : cl.started = (s.client c).started ++ [k.val]) : ViewOk (s.setClient c cl) c := by
  have hnil := List.append_eq_nil_iff.mp hpipe
  have hpipe' : pipeline (s.setClient c cl) c = [k.val] := by
    have hunw : unwritten (s.setClient c cl) c = [k.val] := by
      simp only [unwritten, setClient_self, hpc, hkey]
    have hrest : inHand s c ++ (s.unread c).toList = [] := hnil.1
    rw [pipeline, hunw]
    exact congrArg (· ++ [k.val]) hrest
  exact {
    conserved := by
      rw [hpipe', setClient_self, hst, h.conserved, hpipe, List.append_nil]
      rfl
    single := by rw [hpipe']; exact Nat.le_refl 1
    writing := fun _ => by rw [setClient_self, hkey]; exact ⟨k.ne_zero, k.inInt32⟩
    unread_key := h.unread_key
    hand_key := h.hand_key
    freeing_key := h.freeing_key
    key_owner := h.key_owner }

/-- A client that has written its request has it in the record. -/
theorem viewOk_write (s : State σ) (c : Nat) (cl : Client) (h : ViewOk s c)
    (hw : (s.client c).pc = .write) (hzero : s.serverReqArea c = 0) (hpc : cl.pc = .reset)
    (hst : cl.started = (s.client c).started) :
    ViewOk ((s.setKey c (s.client c).reqKey (some (s.client c).reqKey)).setClient c cl) c := by
  have hunw : unwritten s c = [(s.client c).reqKey] := by simp only [unwritten, hw]
  -- The request to write is the one that may be under way.
  have hpipe : inHand s c ++ (s.unread c).toList = [] := by
    have hone := h.single
    rw [pipeline, hunw, List.length_append, List.length_singleton] at hone
    exact List.eq_nil_of_length_eq_zero (by omega)
  have hhand : inHand s c = [] := (List.append_eq_nil_iff.mp hpipe).1
  have hfree : ¬ freeing s c := fun hf => (h.freeing_key hf).1 hzero
  have hpipe' : pipeline ((s.setKey c (s.client c).reqKey
      (some (s.client c).reqKey)).setClient c cl) c = [(s.client c).reqKey] := by
    have hunw' : unwritten ((s.setKey c (s.client c).reqKey
        (some (s.client c).reqKey)).setClient c cl) c = [] := by
      simp only [unwritten, setClient_self, hpc]
    have hhand' : inHand ((s.setKey c (s.client c).reqKey
        (some (s.client c).reqKey)).setClient c cl) c = [] := hhand
    rw [pipeline, hunw', hhand', setClient_unread, setKey_unread_self]
    rfl
  exact {
    conserved := by
      rw [hpipe', setClient_self, hst, h.conserved, pipeline, hpipe, hunw, List.nil_append]
      rfl
    single := by rw [hpipe']; exact Nat.le_refl 1
    writing := by
      rw [setClient_self, hpc]
      exact fun h' => absurd h' (by simp only [reduceCtorEq, not_false_eq_true])
    unread_key := fun v hv => by
      rw [setClient_unread, setKey_unread_self, Option.some.injEq] at hv
      rw [setClient_serverReqArea, setKey_self, ← hv]
      exact ⟨rfl, h.writing hw⟩
    hand_key := fun hne => absurd hhand hne
    freeing_key := fun hf => absurd hf hfree
    key_owner := fun _ hun => by
      rw [setClient_unread, setKey_unread_self] at hun
      exact absurd hun (by simp only [reduceCtorEq, not_false_eq_true]) }

/-- Resetting the response word and testing it move no request. -/
theorem viewOk_local (s : State σ) (c : Nat) (cl : Client) (h : ViewOk s c)
    (hpc : (s.client c).pc ≠ .write) (hpc' : cl.pc ≠ .write)
    (hst : cl.started = (s.client c).started) : ViewOk (s.setClient c cl) c := by
  have hunw : unwritten s c = unwritten (s.setClient c cl) c := by
    rw [unwritten_eq_nil s c hpc, unwritten_eq_nil _ c (by rw [setClient_self]; exact hpc')]
  have hpipe : pipeline (s.setClient c cl) c = pipeline s c := by
    rw [pipeline, pipeline, hunw]
    rfl
  exact {
    conserved := by rw [hpipe, setClient_self, hst]; exact h.conserved
    single := by rw [hpipe]; exact h.single
    writing := by rw [setClient_self]; exact fun hw => absurd hw hpc'
    unread_key := h.unread_key
    hand_key := h.hand_key
    freeing_key := h.freeing_key
    key_owner := h.key_owner }

/-- A client that waits keeps the queues. -/
theorem queueOk_clientStep (s t : State σ) (c : Nat) (h : QueueOk s)
    (hok : slotFree s (.client c)) (hstep : clientStep s c = some t) : QueueOk t := by
  have hv := h.view c
  rcases clientStep_cases s t c hstep with ⟨k, ks, hpc, rfl⟩ | ⟨hpc, rfl⟩ | ⟨pc, r, hpc, hpc', rfl⟩
  · -- It begins a PUT, with nothing of its own under way.
    have hnw : (s.client c).pc ≠ .write := by
      rw [hpc]
      simp only [ne_eq, reduceCtorEq, not_false_eq_true]
    refine ⟨fun c' => ?_, h.seen, h.kept⟩
    by_cases hc : c' = c
    · rw [hc]
      exact viewOk_start s c _ k hv (pipeline_eq_nil s c hv hnw (hok.1 hpc)) rfl rfl rfl
    · exact viewOk_congr s _ c' (setClient_other s c c' _ hc) rfl rfl rfl rfl Iff.rfl (h.view c')
  · -- It writes its request, into a record that reads 0.
    have hzero := hok.2 hpc
    have hun : s.unread c = none := by
      cases hu : s.unread c with
      | none => rfl
      | some v =>
          rcases hv.unread_key v hu with ⟨hv, hv0, _⟩
          exact absurd (hv.symm.trans hzero) hv0
    refine ⟨fun c' => ?_, fun hseen => ?_, ?_⟩
    · by_cases hc : c' = c
      · rw [hc]
        exact viewOk_write s c _ hv hpc hzero rfl rfl
      · exact viewOk_congr s _ c' (setClient_other _ c c' _ hc)
          (by rw [setClient_serverReqArea, setKey_other s c c' _ _ hc])
          (by rw [setClient_unread, setKey_unread_other s c c' _ _ hc]) rfl rfl Iff.rfl (h.view c')
    · -- The server has seen another record than the one written.
      have hne : s.slot ≠ c := fun hc => h.seen hseen (by rw [hc]; exact hzero)
      have hkey : (s.setKey c (s.client c).reqKey (some (s.client c).reqKey)).serverReqArea s.slot =
          s.serverReqArea s.slot := setKey_other s c s.slot _ _ hne
      exact fun h0 => h.seen hseen (hkey.symm.trans h0)
    · -- The record read 0, so the store hit no request.
      change (s.overwritten || (s.unread c).isSome) = false
      rw [h.kept, hun]
      rfl
  · -- It resets or tests the response word.
    have hnw : (s.client c).pc ≠ .write := by
      rcases hpc with hp | hp <;> rw [hp] <;>
        simp only [ne_eq, reduceCtorEq, not_false_eq_true]
    refine ⟨fun c' => ?_, h.seen, h.kept⟩
    by_cases hc : c' = c
    · rw [hc]
      exact viewOk_local s c _ hv hnw hpc' rfl
    · exact viewOk_congr s _ c' (setClient_other s c c' _ hc) rfl rfl rfl rfl Iff.rfl (h.view c')

/-! ## The server's side -/

/-- What the server does at its record leaves the other clients' queues alone. -/
theorem viewOk_other (s t : State σ) (c : Nat) (hslot : t.slot = s.slot) (hc : c ≠ s.slot)
    (hcl : t.client c = s.client c) (hkey : t.serverReqArea c = s.serverReqArea c)
    (hun : t.unread c = s.unread c) (happ : appliedOf t c = appliedOf s c) (h : ViewOk s c) :
    ViewOk t c := by
  have hs : s.slot ≠ c := fun he => hc he.symm
  have ht : t.slot ≠ c := fun he => hc (he.symm.trans hslot)
  refine viewOk_congr s t c hcl hkey hun happ ?_ ?_ h
  · rw [inHand_other s c hs, inHand_other t c ht]
  · exact iff_of_false (not_freeing_other t c ht) (not_freeing_other s c hs)

/-- Going on to the next record moves no request. -/
theorem queueOk_scan (s t : State σ) (h : QueueOk s) (hpc : s.pc = .scan) (i : Int)
    (ht : t = { s with
      i := i, pc := if s.serverReqArea i.toNat = 0 then .scan else .seen }) : QueueOk t := by
  have hpc' : t.pc = .scan ∨ t.pc = .seen := by
    rw [ht]
    by_cases h0 : s.serverReqArea i.toNat = 0
    · exact Or.inl (if_pos h0)
    · exact Or.inr (if_neg h0)
  -- Between two records the server has nothing in hand and frees none.
  have hhand : ∀ c, inHand t c = [] := fun c => inHand_eq_nil t c fun k hk => by
    rcases hpc' with hp | hp <;>
      exact absurd (hk.symm.trans hp) (by simp only [reduceCtorEq, not_false_eq_true])
  have hhand' : ∀ c, inHand s c = [] := fun c => inHand_eq_nil s c fun k hk =>
    absurd (hk.symm.trans hpc) (by simp only [reduceCtorEq, not_false_eq_true])
  have hfree : ∀ c, ¬ freeing t c := fun c => not_freeing_of_pc t c (by
    rcases hpc' with hp | hp <;> rw [hp] <;>
      simp only [ne_eq, reduceCtorEq, not_false_eq_true, and_self])
  have hfree' : ∀ c, ¬ freeing s c := fun c => not_freeing_of_pc s c (by
    rw [hpc]
    simp only [ne_eq, reduceCtorEq, not_false_eq_true, and_self])
  refine ⟨fun c => ?_, fun hseen => ?_, by rw [ht]; exact h.kept⟩
  · refine viewOk_congr s t c ?_ ?_ ?_ ?_ ?_ (iff_of_false (hfree c) (hfree' c)) (h.view c)
    · rw [ht]
    · rw [ht]
    · rw [ht]
    · rw [ht]; rfl
    · rw [hhand c, hhand' c]
  · rw [ht] at hseen ⊢
    by_cases h0 : s.serverReqArea i.toNat = 0
    · exact absurd ((if_pos h0).symm.trans hseen)
        (by simp only [reduceCtorEq, not_false_eq_true])
    · exact h0

/-- The key the server reads is the request that lies in the record. -/
theorem queueOk_seen (s t : State σ) (h : QueueOk s) (hpc : s.pc = .seen)
    (ht : t = { s with
      pc := .got (toInt32 (s.serverReqArea s.slot))
      unread := Function.update s.unread s.slot none }) : QueueOk t := by
  have hslot : t.slot = s.slot := by rw [ht]; rfl
  have htpc : t.pc = .got (toInt32 (s.serverReqArea s.slot)) := by rw [ht]
  refine ⟨fun c => ?_, fun hseen => absurd (htpc.symm.trans hseen)
    (by simp only [reduceCtorEq, not_false_eq_true]), by rw [ht]; exact h.kept⟩
  by_cases hc : c = s.slot
  · rw [hc]
    have hv := h.view s.slot
    have hne := h.seen hpc
    have hhand : inHand s s.slot = [] := inHand_eq_nil s _ fun k hk =>
      absurd (hk.symm.trans hpc) (by simp only [reduceCtorEq, not_false_eq_true])
    have hfree : ¬ freeing s s.slot := not_freeing_of_pc s s.slot (by
      rw [hpc]
      simp only [ne_eq, reduceCtorEq, not_false_eq_true, and_self])
    -- A taken record with nothing in hand and not being freed holds a request.
    have hun : s.unread s.slot = some (s.serverReqArea s.slot) := by
      cases hu : s.unread s.slot with
      | none =>
          rcases hv.key_owner hne hu with hh | hf
          · exact absurd hhand hh
          · exact absurd hf hfree
      | some v => rw [(hv.unread_key v hu).1]
    rcases hv.unread_key _ hun with ⟨_, _, hfits⟩
    have hhand' : inHand t s.slot = [s.serverReqArea s.slot] := by
      rw [← hslot, inHand_got t _ htpc, hslot, toInt32_of_inInt32 _ hfits]
    have hun' : t.unread s.slot = none := by
      rw [ht]
      exact Function.update_self s.slot none s.unread
    have hcl : t.client = s.client := by rw [ht]
    have hkey : t.serverReqArea = s.serverReqArea := by rw [ht]
    have hpipe : pipeline t s.slot = pipeline s s.slot := by
      rw [pipeline, pipeline, hhand', hun', hhand, hun, unwritten, unwritten, hcl]
      rfl
    exact {
      conserved := by rw [hcl, hpipe, ht]; exact hv.conserved
      single := by rw [hpipe]; exact hv.single
      writing := by rw [hcl]; exact hv.writing
      unread_key := fun v hv' => absurd (hun'.symm.trans hv')
        (by simp only [reduceCtorEq, not_false_eq_true])
      hand_key := fun _ => by rw [hkey]; exact hne
      freeing_key := fun hf => absurd hf (not_freeing_of_pc t s.slot (by
        rw [htpc]
        simp only [ne_eq, reduceCtorEq, not_false_eq_true, and_self]))
      key_owner := fun _ _ => Or.inl (by
        rw [hhand']
        exact List.cons_ne_nil _ _) }
  · refine viewOk_other s t c hslot hc ?_ ?_ ?_ ?_ (h.view c)
    · rw [ht]
    · rw [ht]
    · rw [ht]; exact Function.update_of_ne hc none s.unread
    · rw [ht]; rfl

/-- The update takes the request out of the server's hand. -/
theorem queueOk_got (s t : State σ) (h : QueueOk s) (k : Int) (hpc : s.pc = .got k) (st : σ)
    (ht : t = { s with
      pc := .applied, store := st, log := s.log ++ [(s.slot, k)] }) : QueueOk t := by
  have hslot : t.slot = s.slot := by rw [ht]; rfl
  have htpc : t.pc = .applied := by rw [ht]
  have hcl : t.client = s.client := by rw [ht]
  have hkey : t.serverReqArea = s.serverReqArea := by rw [ht]
  have hun : t.unread = s.unread := by rw [ht]
  refine ⟨fun c => ?_, fun hseen => absurd (htpc.symm.trans hseen)
    (by simp only [reduceCtorEq, not_false_eq_true]), by rw [ht]; exact h.kept⟩
  by_cases hc : c = s.slot
  · rw [hc]
    have hv := h.view s.slot
    have hhand := inHand_got s k hpc
    have hhand' : inHand t s.slot = [] := inHand_eq_nil t _ fun k' hk =>
      absurd (hk.symm.trans htpc) (by simp only [reduceCtorEq, not_false_eq_true])
    have happ : appliedOf t s.slot = appliedOf s s.slot ++ [k] := by
      rw [appliedOf, ht, List.filter_append, List.map_append, appliedOf]
      simp only [decide_true, List.filter_cons_of_pos, List.filter_nil, List.map_cons,
        List.map_nil]
    -- The queue moves up by one, and it had only one.
    have hpipe : pipeline s s.slot = k :: pipeline t s.slot := by
      rw [pipeline, pipeline, hhand, hhand', hun, unwritten, unwritten, hcl]
      rfl
    have hempty : pipeline t s.slot = [] := by
      have hone := hv.single
      rw [hpipe, List.length_cons] at hone
      exact List.eq_nil_of_length_eq_zero (by omega)
    have hnone : t.unread s.slot = none := by
      rw [pipeline, hhand', List.nil_append, List.append_eq_nil_iff] at hempty
      exact Option.toList_eq_nil_iff.mp hempty.1
    have hne : s.serverReqArea s.slot ≠ 0 := hv.hand_key (by
      rw [hhand]
      exact List.cons_ne_nil _ _)
    exact {
      conserved := by
        rw [hcl, happ, hempty, List.append_nil, hv.conserved, hpipe, hempty]
      single := by rw [hempty]; exact Nat.zero_le 1
      writing := by rw [hcl]; exact hv.writing
      unread_key := fun v hv' => absurd (hnone.symm.trans hv')
        (by simp only [reduceCtorEq, not_false_eq_true])
      hand_key := fun _ => by rw [hkey]; exact hne
      freeing_key := fun _ => by rw [hkey]; exact ⟨hne, hnone⟩
      key_owner := fun _ _ => Or.inr ⟨hslot, Or.inl htpc⟩ }
  · refine viewOk_other s t c hslot hc (by rw [hcl]) (by rw [hkey]) (by rw [hun]) ?_ (h.view c)
    -- The entry in the log is of another record.
    have hlog : ¬ s.slot = c := fun he => hc he.symm
    rw [appliedOf, ht, List.filter_append, List.map_append, appliedOf]
    simp only [hlog, decide_false, Bool.false_eq_true, not_false_eq_true,
      List.filter_cons_of_neg, List.filter_nil, List.map_nil, List.append_nil]

/-- The server's stores to the record, and its answer, come when no request lies
    there. They keep the queue whether they leave the record taken or free it. -/
theorem queueOk_freeing (s t : State σ) (h : QueueOk s) (hfree : freeing s s.slot)
    (hslot : t.slot = s.slot) (hcl : ∀ c, c ≠ s.slot → t.client c = s.client c)
    (hpc : (t.client s.slot).pc = (s.client s.slot).pc)
    (hreq : (t.client s.slot).reqKey = (s.client s.slot).reqKey)
    (hst : (t.client s.slot).started = (s.client s.slot).started)
    (hkey : ∀ c, c ≠ s.slot → t.serverReqArea c = s.serverReqArea c)
    (hun : t.unread = s.unread) (hlog : t.log = s.log) (hkept : t.overwritten = s.overwritten)
    (hto : t.serverReqArea s.slot ≠ 0 ∧ (t.pc = .answered ∨ t.pc = .acked) ∨
      t.serverReqArea s.slot = 0 ∧ t.pc = .scan) : QueueOk t := by
  have hseen : t.pc ≠ .seen := by
    rcases hto with ⟨_, hp | hp⟩ | ⟨_, hp⟩ <;> rw [hp] <;>
      simp only [ne_eq, reduceCtorEq, not_false_eq_true]
  have happ : ∀ c, appliedOf t c = appliedOf s c := fun c => by rw [appliedOf, hlog, appliedOf]
  refine ⟨fun c => ?_, fun hs => absurd hs hseen, hkept.trans h.kept⟩
  by_cases hc : c = s.slot
  · rw [hc]
    have hv := h.view s.slot
    -- The request has been taken up, so none lies in the record and none is in hand.
    have hnone : t.unread s.slot = none := by
      rw [hun]
      exact (hv.freeing_key hfree).2
    have hhand : inHand s s.slot = [] := inHand_eq_nil s _ fun k hk => by
      rcases hfree.2 with hp | hp | hp <;>
        exact absurd (hk.symm.trans hp) (by simp only [reduceCtorEq, not_false_eq_true])
    have hhand' : inHand t s.slot = [] := inHand_eq_nil t _ fun k hk => by
      rcases hto with ⟨_, hp | hp⟩ | ⟨_, hp⟩ <;>
        exact absurd (hk.symm.trans hp) (by simp only [reduceCtorEq, not_false_eq_true])
    have hpipe : pipeline t s.slot = pipeline s s.slot := by
      rw [pipeline, pipeline, hhand, hhand', hun, unwritten, unwritten, hpc, hreq]
    exact {
      conserved := by rw [hst, happ, hpipe]; exact hv.conserved
      single := by rw [hpipe]; exact hv.single
      writing := by rw [hpc, hreq]; exact hv.writing
      unread_key := fun v hv' => absurd (hnone.symm.trans hv')
        (by simp only [reduceCtorEq, not_false_eq_true])
      hand_key := fun hne => absurd hhand' hne
      freeing_key := fun hf => by
        rcases hto with ⟨hne, _⟩ | ⟨_, hscan⟩
        · exact ⟨hne, hnone⟩
        · exact absurd hf (not_freeing_of_pc t s.slot (by
            rw [hscan]
            simp only [ne_eq, reduceCtorEq, not_false_eq_true, and_self]))
      key_owner := fun hne _ => by
        rcases hto with ⟨_, hp⟩ | ⟨h0, _⟩
        · exact Or.inr ⟨hslot, Or.inr hp⟩
        · exact absurd h0 hne }
  · exact viewOk_other s t c hslot hc (hcl c hc) (hkey c hc) (by rw [hun]) (happ c) (h.view c)

/-- A store to a record in which no request lies leaves the rest as it was. -/
theorem setKey_unread_none (s : State σ) (c : Nat) (key : Int) (h : s.unread c = none) :
    (s.setKey c key none).unread = s.unread ∧
      (s.setKey c key none).overwritten = s.overwritten := by
  simp only [State.setKey, h, Option.isSome_none, Bool.or_false, and_true]
  rw [← h, Function.update_eq_self]

/-- The server's accesses keep the queues, whatever its clients do. -/
theorem queueOk_serverStep (n : Nat) (apply : σ → Int → Option σ) (s t : State σ)
    (h : QueueOk s) (hstep : serverStep n apply s = some t) : QueueOk t := by
  unfold serverStep at hstep
  cases hpc : s.pc with
  | scan =>
      simp only [hpc, Option.some.injEq] at hstep
      exact queueOk_scan s t h hpc _ hstep.symm
  | seen =>
      simp only [hpc, Option.some.injEq] at hstep
      exact queueOk_seen s t h hpc hstep.symm
  | got k =>
      simp only [hpc] at hstep
      cases hst : apply s.store k with
      | none =>
          rw [hst] at hstep
          exact absurd hstep (by simp only [reduceCtorEq, not_false_eq_true])
      | some st =>
          simp only [hst, Option.some.injEq] at hstep
          exact queueOk_got s t h k hpc st hstep.symm
  | applied =>
      -- The 1 goes into a record whose request has been read.
      have hfree : freeing s s.slot := ⟨rfl, Or.inl hpc⟩
      have hun := ((h.view s.slot).freeing_key hfree).2
      rcases setKey_unread_none s s.slot 1 hun with ⟨hu, ho⟩
      simp only [hpc, Option.some.injEq] at hstep
      rw [← hstep]
      exact queueOk_freeing s _ h hfree rfl (fun _ _ => rfl) rfl rfl rfl
        (fun c hc => setKey_other s s.slot c 1 none hc) hu rfl ho
        (Or.inl ⟨by rw [setKey_self]; decide, Or.inl rfl⟩)
  | answered =>
      -- The acknowledgement changes the client's response word alone.
      have hfree : freeing s s.slot := ⟨rfl, Or.inr (Or.inl hpc)⟩
      have hne := ((h.view s.slot).freeing_key hfree).1
      simp only [hpc, Option.some.injEq] at hstep
      rw [← hstep]
      exact queueOk_freeing s _ h hfree rfl (fun c hc => setClient_other s s.slot c _ hc)
        (by simp only [setClient_self]) (by simp only [setClient_self])
        (by simp only [setClient_self]) (fun _ _ => rfl) rfl rfl rfl
        (Or.inl ⟨hne, Or.inr rfl⟩)
  | acked =>
      -- The 0 frees the record, into which no new request has been written yet.
      have hfree : freeing s s.slot := ⟨rfl, Or.inr (Or.inr hpc)⟩
      have hun := ((h.view s.slot).freeing_key hfree).2
      rcases setKey_unread_none s s.slot 0 hun with ⟨hu, ho⟩
      simp only [hpc, Option.some.injEq] at hstep
      rw [← hstep]
      exact queueOk_freeing s _ h hfree rfl (fun _ _ => rfl) rfl rfl rfl
        (fun c hc => setKey_other s s.slot c 0 none hc) hu rfl ho
        (Or.inr ⟨setKey_self s s.slot 0 none, rfl⟩)

theorem queueOk_step (n : Nat) (apply : σ → Int → Option σ) (s : State σ) (a : Action)
    (t : State σ) (h : QueueOk s) (hok : slotFree s a) (hstep : step n apply s a = some t) :
    QueueOk t := by
  cases a with
  | client c =>
      rw [step] at hstep
      by_cases hc : c < n
      · rw [if_pos hc] at hstep
        exact queueOk_clientStep s t c h hok hstep
      · rw [if_neg hc] at hstep
        exact absurd hstep (by simp only [reduceCtorEq, not_false_eq_true])
  | server => exact queueOk_serverStep n apply s t h hstep

/-- A run whose clients wait loses no request, whatever the store. -/
theorem put_run_safe (n : Nat) (apply : σ → Int → Option σ)
    (respArea : Nat → { a : Nat // a ≠ 0 }) (todo : Nat → List PutKey) (store : σ)
    (as : List Action) (t : State σ)
    (hok : Along (step n apply) slotFree as (State.init respArea todo store))
    (hrun : run (step n apply) as (State.init respArea todo store) = some t) : Safe t :=
  safe_of_queueOk t (run_invariant_along (step n apply) slotFree QueueOk
    (queueOk_step n apply) as _ t (queueOk_init respArea todo store) hok hrun)

/-! ## The FaRM server -/

/-- The update `run_server` makes for a request with key `k`. -/
def farmApply (ht : HashTable) (k : Int) : Option HashTable :=
  (hopscotchUpdate ht k k).map Prod.fst

/-- Some address for each response area. -/
def someRespArea : Nat → { a : Nat // a ≠ 0 } :=
  fun c => ⟨4096 * (c + 1), by omega⟩

/-- Client 0 has two PUTs to do and client 1 has one. -/
def twoClients : Nat → List PutKey
  | 0 => [⟨5, by decide, by decide⟩, ⟨7, by decide, by decide⟩]
  | 1 => [⟨9, by decide, by decide⟩]
  | _ => []

/-- One client alone loses a request: it does both its PUTs before the server
    has looked at its record, and the second is written over the first. -/
theorem farm_put_overwritten : ∃ s, run (step 2 farmApply)
    (List.replicate 6 (.client 0)) (State.init someRespArea twoClients hopscotchInit) = some s ∧
      5 ∈ (s.client 0).started.dropLast ∧ appliedOf s 0 = [] ∧ s.overwritten = true ∧
      ¬ Safe s := by
  refine ⟨_, rfl, by decide, rfl, rfl, fun h => ?_⟩
  exact absurd h.2 (by decide)

/-- No PUT to the FaRM server is lost in a run whose clients begin a PUT when
    the server is done with their last one and write it into a free record. -/
theorem farm_put_run_safe (n : Nat) (respArea : Nat → { a : Nat // a ≠ 0 })
    (todo : Nat → List PutKey) (ht : HashTable) (as : List Action) (t : State HashTable)
    (hok : Along (step n farmApply) slotFree as (State.init respArea todo ht))
    (hrun : run (step n farmApply) as (State.init respArea todo ht) = some t) : Safe t :=
  put_run_safe n farmApply respArea todo ht as t hok hrun

/-- The two clients with the server between their accesses. -/
def waitingRun : List Action :=
  [.client 0, .client 0, .server, .client 1, .server, .client 0, .server, .client 0, .server,
    .client 0, .server, .server, .client 1, .client 0, .server, .server, .server, .server,
    .server, .server, .server, .server, .server, .server]

theorem farm_put_run_safe_waitingRun : ∃ t,
    run (step 2 farmApply) waitingRun (State.init someRespArea twoClients hopscotchInit) = some t ∧
      Safe t ∧ appliedOf t 0 = [5, 7] ∧ appliedOf t 1 = [9] := by
  have hres : (run (step 2 farmApply) waitingRun
      (State.init someRespArea twoClients hopscotchInit)).map
        (fun s => (appliedOf s 0, appliedOf s 1)) = some ([5, 7], [9]) := by decide +kernel
  rcases Option.map_eq_some_iff.mp hres with ⟨t, hrun, ht⟩
  rw [Prod.mk.injEq] at ht
  exact ⟨t, hrun, farm_put_run_safe 2 someRespArea twoClients hopscotchInit waitingRun t
    (by decide +kernel) hrun, ht⟩

end FaRM

end LocalKeyValue
